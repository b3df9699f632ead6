import SerialManifest.Proofs.NameJudgement

namespace SerialManifest

variable {ε ε' α β : Type} {Excused : ε → Prop}

/-- The outcomes are the same, unless the first is one of these errors. -/
inductive SameUnless (Excused : ε → Prop) : Except ε α → Except ε α → Prop where
  | same (outcome : Except ε α) : SameUnless Excused outcome outcome
  | excused {error : ε} (h : Excused error) (other : Except ε α) : SameUnless Excused (.error error) other

namespace SameUnless

variable {first second : Except ε α}

theorem eq_of_not_excused (h : SameUnless Excused first second)
    (hn : ∀ error, first = .error error → ¬ Excused error) : first = second := by
  cases h with
  | same => rfl
  | excused he other => exact absurd he (hn _ rfl)

theorem bind {next next' : α → Except ε β} (h : SameUnless Excused first second)
    (others : ∀ value, first = .ok value → SameUnless Excused (next value) (next' value)) :
    SameUnless Excused (first.bind next) (second.bind next') := by
  cases h with
  | same =>
    cases first with
    | error error => exact .same _
    | ok value => exact others value rfl
  | excused he other => exact .excused he _

theorem map (change : α → β) (h : SameUnless Excused first second) :
    SameUnless Excused (first.map change) (second.map change) := by
  cases h with
  | same => exact .same _
  | excused he other => exact .excused he _

theorem mapError {raise : ε → ε'} {Excused' : ε' → Prop} (h : SameUnless Excused first second)
    (hraise : ∀ error, Excused error → Excused' (raise error)) :
    SameUnless Excused' (first.mapError raise) (second.mapError raise) := by
  cases h with
  | same => exact .same _
  | excused he other => exact .excused (hraise _ he) _

theorem foldlM {γ : Type} {step step' : α → γ → Except ε α} {items : List γ} (start : α)
    (h : ∀ value, ∀ item ∈ items, SameUnless Excused (step value item) (step' value item)) :
    SameUnless Excused (items.foldlM step start) (items.foldlM step' start) := by
  induction items generalizing start with
  | nil => exact .same _
  | cons item items ih =>
    have hitem := h start item List.mem_cons_self
    refine hitem.bind fun value _ => ?_
    exact ih value fun value other ho => h value other (List.mem_cons_of_mem item ho)

end SameUnless

/-- What is asked after answers that are the same, unless excused, has answers of that kind itself. -/
theorem TypeFacts.sameUnless_composes (Excused : QueryError → Prop) : Composes
    fun (action plain : Query Unit _) => SameUnless Excused (outcomeOf action) (outcomeOf plain) where
  pure value := .same _
  bind first others := by
    rw [outcomeOf_bind, outcomeOf_bind]
    exact first.bind fun value _ => others value

theorem Verdicts.judge_sameUnless {Excused : QueryError → Prop} {facts other : TypeFacts Unit} {name : String}
    (relates : facts.Relates
      (fun action plain => SameUnless Excused (outcomeOf action) (outcomeOf plain)) other name)
    (rules : EligibilityRules) (contract : FieldContract) :
    SameUnless Excused ((ofFacts rules contract facts).judge name)
      ((ofFacts rules contract other).judge name) := by
  have composes := TypeFacts.sameUnless_composes Excused
  have heligibility : SameUnless Excused ((ofFacts rules contract facts).eligibility name)
      ((ofFacts rules contract other).eligibility name) := relates.classify composes
  have hviolations : SameUnless Excused ((ofFacts rules contract facts).violations name)
      ((ofFacts rules contract other).violations name) := relates.check composes
  refine heligibility.bind fun eligibility _ => ?_
  by_cases hc : eligibility = .contractCheckable
  · rw [if_pos hc, if_pos hc]
    exact hviolations.map _
  · rw [if_neg hc, if_neg hc]
    exact .same _

namespace Scanner

variable {scanner : Scanner} {tree : FileTree} {verdicts verdicts' : Verdicts} {roots : List String}

theorem outcome_sameUnless {Excused : QueryError → Prop} {Excused' : ScanError → Prop}
    (hraise : ∀ error, Excused error → Excused' (.query error))
    (h : ∀ root ∈ roots, ∀ candidate ∈ (tree.walk root).found,
      SameUnless Excused (verdicts.judge candidate.name) (verdicts'.judge candidate.name)) :
    SameUnless Excused' (scanner.outcome tree verdicts roots) (scanner.outcome tree verdicts' roots) := by
  -- both scans come upon the same definitions and end with the same walk, so only judgements can differ
  refine SameUnless.map _ (SameUnless.foldlM _ fun gathered root hroot => ?_)
  have hfound : ∀ gathered, ∀ candidate ∈ (tree.walk root).found,
      SameUnless Excused' (examined verdicts gathered candidate) (examined verdicts' gathered candidate) := by
    intro gathered candidate hm
    have hjudge := h root hroot candidate hm
    exact (hjudge.mapError hraise).map _
  exact (SameUnless.foldlM _ hfound).bind fun last _ => .same _

theorem ended_eq {Excused : ScanError → Prop} {outcome outcome' : Except ScanError ScanResult}
    (h : SameUnless Excused outcome outcome')
    (hn : ∀ error, (scanner.ended outcome).1 = .error error → ¬ Excused error) :
    scanner.ended outcome = scanner.ended outcome' := by
  unfold ended at hn ⊢
  cases hstate : scanner.state with
  | idle =>
    rw [hstate] at hn
    rw [h.eq_of_not_excused hn]
  | _ => rfl

end Scanner

end SerialManifest

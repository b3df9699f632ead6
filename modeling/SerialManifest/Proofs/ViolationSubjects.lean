import SerialManifest.Proofs.NameJudgement

namespace SerialManifest

variable {verdicts : Verdicts} {tree : FileTree} {scanner : Scanner} {roots : List String}

/-- The number of definitions of a type that are found below the roots. -/
def FileTree.visits (tree : FileTree) (roots : List String) (name : String) : Nat :=
  (tree.findings roots).countP (·.name == name)

theorem FileTree.visits_pos_iff {name : String} :
    0 < tree.visits roots name ↔ ∃ candidate ∈ tree.findings roots, candidate.name = name := by
  simp [visits, List.countP_pos_iff]

theorem flatMap_of_key {α β : Type} (items : List α) (key : α → Bool) (value : List β) :
    (items.flatMap fun item => if key item then value else []) =
      (List.replicate (items.countP key) value).flatten := by
  induction items with
  | nil => rfl
  | cons item items ih =>
    rw [List.flatMap_cons, ih, List.countP_cons]
    by_cases hk : key item = true
    · rw [if_pos hk, if_pos hk, List.replicate_succ, List.flatten_cons]
    · rw [if_neg hk, if_neg hk, List.nil_append, Nat.add_zero]

def Verdicts.Attributes (verdicts : Verdicts) : Prop :=
  ∀ name violations, verdicts.violations name = .ok violations →
    ∀ violation ∈ violations, violation.subject = name

theorem FieldContract.subject_of_check {contract : FieldContract} {facts : TypeFacts Unit} {name : String}
    {violations : List Violation} (h : outcomeOf (contract.check facts name) = .ok violations) :
    ∀ violation ∈ violations, violation.subject = name := by
  rw [check, outcomeOf_bind, Except.bind_eq_ok_iff] at h
  obtain ⟨field, _, hkinds⟩ := h
  cases hkinds
  intro violation hm
  obtain ⟨kind, _, rfl⟩ := List.mem_map.1 hm
  rfl

theorem Verdicts.attributes_ofFacts (rules : EligibilityRules) (contract : FieldContract)
    (facts : TypeFacts Unit) : (Verdicts.ofFacts rules contract facts).Attributes :=
  fun _ _ h => FieldContract.subject_of_check h

namespace Verdicts

variable {name : String} {judgement : Judgement}

theorem violations_of_judge (h : verdicts.judge name = .ok judgement)
    (he : judgement.eligibility = .contractCheckable) :
    verdicts.violations name = .ok judgement.violations := by
  obtain ⟨eligibility, _, hrest⟩ := Except.bind_eq_ok_iff.1 h
  split at hrest
  next =>
    obtain ⟨violations, hv, rfl⟩ := Except.map_eq_ok_iff.1 hrest
    exact hv
  next hn =>
    cases hrest
    exact absurd he hn

theorem violations_eq_nil_of_judge (h : verdicts.judge name = .ok judgement)
    (he : judgement.eligibility ≠ .contractCheckable) : judgement.violations = [] := by
  obtain ⟨eligibility, _, hrest⟩ := Except.bind_eq_ok_iff.1 h
  split at hrest
  next hchecked =>
    obtain ⟨violations, _, rfl⟩ := Except.map_eq_ok_iff.1 hrest
    exact absurd hchecked he
  next =>
    cases hrest
    rfl

end Verdicts

namespace Scanner

theorem violations_of_outcome {result : ScanResult} (h : scanner.outcome tree verdicts roots = .ok result) :
    result.violations =
      (tree.findings roots).flatMap fun candidate => (judged verdicts candidate.name).violations := by
  obtain ⟨_, _, gathered, rfl, rfl⟩ := outcome_eq_ok_iff.1 h
  rfl

theorem subject_of_judged (attributes : verdicts.Attributes) (name : String) :
    ∀ violation ∈ (judged verdicts name).violations, violation.subject = name := by
  intro violation hm
  cases hj : verdicts.judge name with
  | error error =>
    rw [judged, hj] at hm
    cases hm
  | ok judgement =>
    rw [judged_of_judge hj] at hm
    by_cases he : judgement.eligibility = .contractCheckable
    · exact attributes name _ (Verdicts.violations_of_judge hj he) violation hm
    · rw [Verdicts.violations_eq_nil_of_judge hj he] at hm
      cases hm

/-- What a scan holds against a type is what its check brings to light, as often as it was found. -/
theorem violationsFor_of_outcome (attributes : verdicts.Attributes) {result : ScanResult}
    (h : scanner.outcome tree verdicts roots = .ok result) (name : String) :
    result.violationsFor name =
      (List.replicate (tree.visits roots name) (judged verdicts name).violations).flatten := by
  have hkept : ∀ candidate : Candidate,
      (judged verdicts candidate.name).violations.filter (·.subject == name) =
        if candidate.name == name then (judged verdicts name).violations else [] := by
    intro candidate
    have hsubject := subject_of_judged attributes candidate.name
    by_cases hn : candidate.name = name
    · rw [if_pos (beq_iff_eq.2 hn), ← hn, List.filter_eq_self]
      exact fun violation hm => beq_iff_eq.2 (hsubject violation hm)
    · rw [if_neg (mt beq_iff_eq.1 hn), List.filter_eq_nil_iff]
      intro violation hm hs
      exact hn ((hsubject violation hm).symm.trans (beq_iff_eq.1 hs))
  rw [ScanResult.violationsFor, violations_of_outcome h, List.filter_flatMap]
  simp only [hkept]
  exact flatMap_of_key _ _ _

theorem passed_iff_of_outcome {result : ScanResult} (h : scanner.outcome tree verdicts roots = .ok result) :
    result.passed = true ↔
      ∀ candidate ∈ tree.findings roots, (judged verdicts candidate.name).violations = [] := by
  rw [ScanResult.passed, List.isEmpty_iff, violations_of_outcome h, List.flatMap_eq_nil_iff]

end Scanner

end SerialManifest

import SerialManifest.Proofs.ScanAggregator

namespace SerialManifest

variable {σ : Type}

/-- A call of a scanner: the files as they are then, who answers, and the roots. -/
structure ScanCall (σ : Type) where
  tree : FileTree
  facts : TypeFacts σ
  roots : List String

section Calls

variable {τ ρ : Type}

/-- Calls one after the other, each of what the one before it has left. -/
def callEach (call : τ → ScanCall σ → StateM σ (ρ × τ)) (object : τ) :
    List (ScanCall σ) → StateM σ (List (ρ × τ))
  | [] => return []
  | first :: later => do
    let ended ← call object first
    let others ← callEach call ended.2 later
    return ended :: others

theorem run_callEach_cons (call : τ → ScanCall σ → StateM σ (ρ × τ)) (object : τ) (first : ScanCall σ)
    (later : List (ScanCall σ)) (memory : σ) :
    (callEach call object (first :: later)).run memory =
      let ended := (call object first).run memory
      let others := (callEach call ended.1.2 later).run ended.2
      (ended.1 :: others.1, others.2) :=
  rfl

theorem callEach_of_settled {call : τ → ScanCall σ → StateM σ (ρ × τ)} {object : τ} {answer : ρ}
    (h : ∀ next, call object next = pure (answer, object)) (calls : List (ScanCall σ)) :
    callEach call object calls = pure (calls.map fun _ => (answer, object)) := by
  induction calls with
  | nil => rfl
  | cons next calls ih => simp only [callEach, h, ih, pure_bind, List.map_cons]

end Calls

/-- The scan is carried out: it ends in no error that says that the scanner has been used. -/
def Scan.CarriedOut {α : Type} (scan : Scan σ α) : Prop :=
  ∀ memory state, (scan.run.run memory).1 ≠ .error (.alreadyUsed state)

namespace Scan.CarriedOut

variable {α β : Type}

theorem pure (value : α) : CarriedOut (Pure.pure value : Scan σ α) :=
  fun _ _ => nofun

theorem walk (error : WalkError) : CarriedOut (throw (.walk error) : Scan σ α) :=
  fun _ _ => nofun

theorem ask (query : Query σ α) : CarriedOut (Scan.ask query) := by
  intro memory state
  rw [Scan.ask, run_adapt]
  cases (query.run.run memory).1 <;> nofun

theorem bind {scan : Scan σ α} {next : α → Scan σ β} (h : scan.CarriedOut)
    (hn : ∀ value, (next value).CarriedOut) : CarriedOut (scan >>= next) := by
  intro memory state
  have hfirst := h memory state
  rw [run_bind]
  generalize scan.run.run memory = ended at hfirst
  obtain ⟨outcome, later⟩ := ended
  cases outcome with
  | ok value => exact hn value later state
  | error error => exact fun he => hfirst (congrArg Except.error (Except.error.inj he))

theorem foldlM {γ : Type} {step : α → γ → Scan σ α} (h : ∀ value item, (step value item).CarriedOut)
    (items : List γ) (start : α) : CarriedOut (items.foldlM step start) := by
  induction items generalizing start with
  | nil => exact pure start
  | cons item items ih => exact (h start item).bind ih

end Scan.CarriedOut

section CarriedOut

open Scan (CarriedOut)

variable (scanner : Scanner) (tree : FileTree) (facts : TypeFacts σ)

theorem Scanner.examine_carriedOut (gathered : Gathered) (candidate : Candidate) :
    (scanner.examine facts gathered candidate).CarriedOut := by
  refine (CarriedOut.ask _).bind fun eligibility => ?_
  cases eligibility with
  | contractCheckable => exact (CarriedOut.ask _).bind fun violations => .pure _
  | _ => exact .pure _

theorem Scanner.examineAll_carriedOut (roots : List String) :
    (scanner.examineAll tree facts roots).CarriedOut := by
  have hroot : ∀ gathered root, (scanner.examineRoot tree facts gathered root).CarriedOut := by
    intro gathered root
    refine (CarriedOut.foldlM (scanner.examine_carriedOut facts) _ _).bind fun last => ?_
    cases (tree.walk root).failure with
    | none => exact .pure last
    | some error => exact .walk error
  exact (CarriedOut.foldlM hroot roots _).bind fun gathered => .pure _

end CarriedOut

namespace Scanner

variable {scanner : Scanner}

def call (scanner : Scanner) (next : ScanCall σ) : StateM σ (Except ScanError ScanResult × Scanner) :=
  scanner.scan next.tree next.facts next.roots

theorem call_of_used (h : scanner.state ≠ .idle) (next : ScanCall σ) :
    scanner.call next = pure (.error (.alreadyUsed scanner.state), scanner) := by
  unfold call scan
  cases hstate : scanner.state with
  | idle => exact absurd hstate h
  | _ => rfl

/-- A scanner that may be used ends in the state that the outcome calls for. -/
theorem run_call_of_idle (h : scanner.state = .idle) (next : ScanCall σ) (memory : σ) :
    ((scanner.call next).run memory).1.2 =
      { scanner with state := stateAfter ((scanner.call next).run memory).1.1 } := by
  unfold call scan
  rw [h]
  rfl

theorem run_call_ne_refused (h : scanner.state = .idle) (next : ScanCall σ) (memory : σ) (state : ScanState) :
    ((scanner.call next).run memory).1.1 ≠ .error (.alreadyUsed state) := by
  unfold call scan
  rw [h]
  exact examineAll_carriedOut { scanner with state := .scanning } next.tree next.facts next.roots memory state

theorem stateAfter_eq_succeeded_iff {outcome : Except ScanError ScanResult} :
    stateAfter outcome = .succeeded ↔ ∃ result, outcome = .ok result ∧ result.violations = [] := by
  cases outcome with
  | error error => simp [stateAfter]
  | ok result => simp [stateAfter, ScanResult.passed]

theorem stateAfter_eq_failed_iff {outcome : Except ScanError ScanResult} :
    stateAfter outcome = .failed ↔ stateAfter outcome ≠ .succeeded := by
  cases outcome with
  | error error => simp [stateAfter]
  | ok result => cases hp : result.passed <;> simp [stateAfter, hp]

theorem intoManifest_iff {outcome : Except ScanError ScanResult} :
    (∃ names, outcome.bind ScanResult.intoManifest = .ok names) ↔
      ∃ result, outcome = .ok result ∧ result.violations = [] := by
  simp only [Except.bind_eq_ok_iff, ScanResult.intoManifest_eq_ok_iff]
  constructor
  · rintro ⟨_, result, hr, hv, _⟩
    exact ⟨result, hr, hv⟩
  · rintro ⟨result, hr, hv⟩
    exact ⟨result.manifest, result, hr, hv, rfl⟩

theorem stateAfter_ne_idle (outcome : Except ScanError ScanResult) : stateAfter outcome ≠ .idle := by
  cases outcome with
  | error error => nofun
  | ok result => cases hp : result.passed <;> simp [stateAfter, hp]

theorem run_call_ne_idle (scanner : Scanner) (next : ScanCall σ) (memory : σ) :
    ((scanner.call next).run memory).1.2.state ≠ .idle := by
  by_cases h : scanner.state = .idle
  · rw [run_call_of_idle h]
    exact stateAfter_ne_idle _
  · rw [call_of_used h]
    exact h

end Scanner

namespace Aggregator

def call (aggregator : Aggregator) (next : ScanCall σ) :
    StateM σ (Except ScanError ScanResult × Aggregator) :=
  aggregator.scan next.tree next.facts next.roots

/-- Whatever earlier calls have left behind, a scanner that gathers in place answers as one that does not. -/
theorem run_callEach_eq {aggregator : Aggregator} (tidy : aggregator.Tidy) (calls : List (ScanCall σ))
    (memory : σ) :
    Prod.map (List.map withoutGathered) id ((callEach call aggregator calls).run memory) =
      (callEach Scanner.call aggregator.scanner calls).run memory := by
  induction calls generalizing aggregator memory with
  | nil => rfl
  | cons first later ih =>
    have hfirst : Prod.map withoutGathered id ((aggregator.call first).run memory) =
      (aggregator.scanner.call first).run memory := run_scan_eq tidy memory
    have hused := aggregator.scanner.run_call_ne_idle first memory
    rw [run_callEach_cons, run_callEach_cons, ← hfirst]
    rw [← hfirst] at hused
    have hlater := ih (fun hidle => absurd hidle hused) ((aggregator.call first).run memory).2
    exact congrArg (Prod.map (withoutGathered ((aggregator.call first).run memory).1 :: ·) id) hlater

end Aggregator

/-- A scanner carries out one call. After that it has succeeded if the outcome can be made a manifest, and else it
has failed, however the scan ended. It refuses every later call and stays as it is, without regard to what
the call is about and without a question to anyone. What a scan that broke off has gathered never comes to
light. -/
theorem callEach_uses_once (rules : EligibilityRules) (contract : FieldContract) (manifestName : String)
    (first : ScanCall σ) (later : List (ScanCall σ)) (memory : σ) :
    let scanner := Scanner.fresh rules contract manifestName
    let ended := (scanner.call first).run memory
    let outcome := ended.1.1
    let used := ended.1.2
    (callEach Scanner.call scanner (first :: later)).run memory =
        ((outcome, used) :: later.map fun _ => (.error (.alreadyUsed used.state), used), ended.2) ∧
      (∀ state, outcome ≠ .error (.alreadyUsed state)) ∧
      used = { scanner with state := used.state } ∧
      (used.state = .succeeded ↔ ∃ result, outcome = .ok result ∧ result.violations = []) ∧
      (used.state = .failed ↔ ¬ ∃ result, outcome = .ok result ∧ result.violations = []) ∧
      ((∃ names, outcome.bind ScanResult.intoManifest = .ok names) ↔ used.state = .succeeded) ∧
      Prod.map (List.map Aggregator.withoutGathered) id
          ((callEach Aggregator.call ⟨scanner, .nothing⟩ (first :: later)).run memory) =
        (callEach Scanner.call scanner (first :: later)).run memory := by
  intro scanner ended outcome used
  have hused : used = { scanner with state := Scanner.stateAfter outcome } :=
    Scanner.run_call_of_idle rfl first memory
  have hstate : used.state = Scanner.stateAfter outcome := by rw [hused]
  have hrefused : ∀ next : ScanCall σ, used.call next = pure (.error (.alreadyUsed used.state), used) :=
    Scanner.call_of_used (scanner.run_call_ne_idle first memory)
  refine ⟨?_, Scanner.run_call_ne_refused rfl first memory, ?_, ?_, ?_, ?_,
    Aggregator.run_callEach_eq (fun _ => rfl) (first :: later) memory⟩
  · have hlater := congrArg (fun answers => answers.run ended.2) (callEach_of_settled hrefused later)
    exact congrArg (Prod.map ((outcome, used) :: ·) id) hlater
  · rw [hstate]
    exact hused
  · rw [hstate]
    exact Scanner.stateAfter_eq_succeeded_iff
  · rw [hstate, Scanner.stateAfter_eq_failed_iff, ne_eq, Scanner.stateAfter_eq_succeeded_iff]
  · rw [hstate, Scanner.stateAfter_eq_succeeded_iff]
    exact Scanner.intoManifest_iff

end SerialManifest

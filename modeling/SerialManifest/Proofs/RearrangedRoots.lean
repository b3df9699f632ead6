import SerialManifest.Proofs.ManifestDeterminism
import SerialManifest.Proofs.ReorderedWalks
import SerialManifest.Proofs.ViolationSubjects

namespace SerialManifest

theorem FileTree.SameContents.symm {first second : FileTree} (same : first.SameContents second) :
    second.SameContents first :=
  ⟨same.current.symm, fun place => (same.nodes place).symm⟩

/-- The results tell the same, but for the order in which the types come that violations are about. -/
structure ScanResult.Rearranges (first second : ScanResult) : Prop where
  manifestName : first.manifestName = second.manifestName
  manifest : first.manifest = second.manifest
  tally : first.tally = second.tally
  violations : first.violations.Perm second.violations
  violationsFor : ∀ subject, first.violationsFor subject = second.violationsFor subject

theorem ScanResult.Rearranges.passed {first second : ScanResult} (h : first.Rearranges second) :
    first.passed = second.passed := by
  have hempty : first.violations = [] ↔ second.violations = [] := by
    constructor
    · intro he
      exact List.perm_nil.1 (he ▸ h.violations.symm)
    · intro he
      exact List.perm_nil.1 (he ▸ h.violations)
  rw [ScanResult.passed, ScanResult.passed, Bool.eq_iff_iff, List.isEmpty_iff, List.isEmpty_iff, hempty]

namespace Scanner

variable {scanner : Scanner} {first second : FileTree} {verdicts : Verdicts} {roots roots' : List String}

theorem visits_of_rearranged (same : first.SameContents second) (hroots : roots.Perm roots')
    (h : ∀ root ∈ roots, (first.walk root).failure = none) (name : String) :
    first.visits roots name = second.visits roots' name :=
  (same.findings_perm hroots h).countP_eq _

theorem outcome_rearranged (same : first.SameContents second) (hroots : roots.Perm roots')
    (attributes : verdicts.Attributes) {result : ScanResult}
    (h : scanner.outcome first verdicts roots = .ok result) :
    ∃ result', scanner.outcome second verdicts roots' = .ok result' ∧ result.Rearranges result' := by
  obtain ⟨result', h', hname, hmanifest, hviolations, htally⟩ := outcome_perm same hroots h
  have hwalks := (outcome_eq_ok_iff.1 h).1
  refine ⟨result', h', hname, hmanifest, htally, hviolations, fun subject => ?_⟩
  have hfor := violationsFor_of_outcome attributes h subject
  have hfor' := violationsFor_of_outcome attributes h' subject
  rw [hfor, hfor', visits_of_rearranged same hroots hwalks]

theorem state_of_rearranged {outcome outcome' : Except ScanError ScanResult}
    (hok : ∀ result, outcome = .ok result → ∃ result', outcome' = .ok result' ∧ result.Rearranges result')
    (hok' : ∀ result', outcome' = .ok result' → ∃ result, outcome = .ok result) :
    (scanner.ended outcome).2.state = (scanner.ended outcome').2.state := by
  have hafter : stateAfter outcome = stateAfter outcome' := by
    cases outcome with
    | ok result =>
      obtain ⟨result', rfl, hr⟩ := hok result rfl
      rw [stateAfter, stateAfter, hr.passed]
    | error error =>
      cases outcome' with
      | ok result' =>
        obtain ⟨result, hr⟩ := hok' result' rfl
        cases hr
      | error error' => rfl
  unfold ended
  cases scanner.state with
  | idle => exact hafter
  | _ => rfl

/-- Neither the order of the roots nor that of the children of directories decides whether a scan fails, what
it lists and counts, what it holds against a type, or in which state it ends. -/
theorem scan_of_rearranged (scanner : Scanner) {σ : Type} {Good : σ → Prop} {facts : TypeFacts σ}
    {answers : TypeFacts Unit} (follows : facts.Follows Good answers)
    (same : first.SameContents second) (hroots : roots.Perm roots') {memory memory' : σ}
    (good : Good memory) (good' : Good memory') :
    let ended := ((scanner.scan first facts roots).run memory).1
    let ended' := ((scanner.scan second facts roots').run memory').1
    ((∃ result, ended.1 = .ok result) ↔ ∃ result', ended'.1 = .ok result') ∧
      (∀ result result', ended.1 = .ok result → ended'.1 = .ok result' → result.Rearranges result') ∧
      ended.2.state = ended'.2.state := by
  intro ended ended'
  have attributes := Verdicts.attributes_ofFacts scanner.rules scanner.contract answers
  have hended : ended = scanner.ended _ := scan_gives follows.settled good roots
  have hended' : ended' = scanner.ended _ := scan_gives follows.settled good' roots'
  generalize Verdicts.ofFacts scanner.rules scanner.contract answers = verdicts
    at attributes hended hended'
  have hforth : ∀ result, scanner.outcome first verdicts roots = .ok result →
      ∃ result', scanner.outcome second verdicts roots' = .ok result' ∧ result.Rearranges result' :=
    fun _ => outcome_rearranged same hroots attributes
  have hback : ∀ result', scanner.outcome second verdicts roots' = .ok result' →
      ∃ result, scanner.outcome first verdicts roots = .ok result ∧ result'.Rearranges result :=
    fun _ => outcome_rearranged same.symm hroots.symm attributes
  rw [hended, hended']
  refine ⟨?_, ?_, ?_⟩
  · simp only [ended_eq_ok_iff]
    constructor
    · rintro ⟨result, hidle, h⟩
      obtain ⟨result', h', _⟩ := hforth result h
      exact ⟨result', hidle, h'⟩
    · rintro ⟨result', hidle, h'⟩
      obtain ⟨result, h, _⟩ := hback result' h'
      exact ⟨result, hidle, h⟩
  · intro result result' h h'
    obtain ⟨other, ho, hr⟩ := hforth result (ended_eq_ok_iff.1 h).2
    cases ho.symm.trans (ended_eq_ok_iff.1 h').2
    exact hr
  · refine state_of_rearranged hforth fun result' h' => ?_
    obtain ⟨result, h, _⟩ := hback result' h'
    exact ⟨result, h⟩

/-- Two classes without the field, met in the one order and in the other. -/
theorem scan_of_swappedTree :
    let rules : EligibilityRules := ⟨[""], "java.io.Serializable", ["java.io.Externalizable"]⟩
    let scanner := Scanner.fresh rules (.version "serialVersionUID") "classes"
    let classpath := (Classpath.empty.addRoot Classpath.cyclicTree "lib").1
    let facts := classpath.facts Classpath.cyclicTree
    ∃ result result',
      ((scanner.scan Classpath.cyclicTree facts ["lib", "lib/B.class"]).run .empty).1.1 = .ok result ∧
      ((scanner.scan Settings.cyclicTree' facts ["lib/B.class", "lib"]).run .empty).1.1 = .ok result' ∧
      result.violations.map (·.subject) = ["A", "B", "B"] ∧
      result'.violations.map (·.subject) = ["B", "B", "A"] ∧ result.Rearranges result' := by
  intro rules scanner classpath facts
  have hfirst : ((scanner.scan Classpath.cyclicTree facts ["lib", "lib/B.class"]).run
      .empty).1.1.toOption.map (·.violations.map (·.subject)) = some ["A", "B", "B"] := by
    decide +kernel
  have hsecond : ((scanner.scan Settings.cyclicTree' facts ["lib/B.class", "lib"]).run
      .empty).1.1.toOption.map (·.violations.map (·.subject)) = some ["B", "B", "A"] := by
    decide +kernel
  obtain ⟨result, hr, hviolations⟩ := Option.map_eq_some_iff.1 hfirst
  obtain ⟨result', hr', hviolations'⟩ := Option.map_eq_some_iff.1 hsecond
  have hscan := Except.toOption_eq_some_iff.1 hr
  have hscan' := Except.toOption_eq_some_iff.1 hr'
  have built : classpath.Built := .addRoot .empty Classpath.cyclicTree "lib"
  have faithful := ClassCache.faithful_empty classpath Classpath.cyclicTree
  have hswapped : ["lib", "lib/B.class"].Perm ["lib/B.class", "lib"] := .swap "lib/B.class" "lib" []
  obtain ⟨_, hrearranges, _⟩ := scan_of_rearranged scanner (Classpath.facts_follows built)
    Settings.sameContents_cyclicTree hswapped faithful faithful
  exact ⟨result, result', hscan, hscan', hviolations, hviolations', hrearranges result result' hscan hscan'⟩

end Scanner

end SerialManifest

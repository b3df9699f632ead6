import Mathlib.Data.List.Dedup
import SerialManifest.Proofs.ManifestMembership
import SerialManifest.Proofs.ViolationSubjects

namespace SerialManifest

/-- A sorted list of the members of a list is no longer than it, and it is as long only if none of them occurs
twice. -/
theorem length_le_of_sorted {names sorted : List String} (hs : sorted.Pairwise (· < ·))
    (hm : ∀ name, name ∈ sorted ↔ name ∈ names) :
    sorted.length ≤ names.length ∧ (sorted.length = names.length ↔ names.Nodup) := by
  have hnodup : sorted.Nodup := hs.imp fun hlt => ne_of_lt hlt
  have hperm : sorted.Perm names.dedup :=
    (List.perm_ext_iff_of_nodup hnodup names.nodup_dedup).2 fun name => by rw [hm, List.mem_dedup]
  have hsub := List.dedup_sublist names
  rw [hperm.length_eq]
  refine ⟨hsub.length_le, fun he => ?_, fun h => by rw [h.dedup]⟩
  have hsame := hsub.eq_of_length he
  exact hsame ▸ names.nodup_dedup

theorem flatMap_filter_of_nil {α β : Type} {items : List α} {kept : α → Bool} {values : α → List β}
    (h : ∀ item ∈ items, kept item = false → values item = []) :
    items.flatMap values = (items.filter kept).flatMap values := by
  induction items with
  | nil => rfl
  | cons item items ih =>
    have hrest := ih fun other hm => h other (List.mem_cons_of_mem item hm)
    rw [List.flatMap_cons, hrest]
    cases hk : kept item with
    | false => rw [List.filter_cons_of_neg (by simp [hk]), h item List.mem_cons_self hk, List.nil_append]
    | true => rw [List.filter_cons_of_pos hk, List.flatMap_cons]

theorem countP_checkable_le {α : Type} (items : List α) (eligibility : α → Eligibility) :
    (items.countP fun item => eligibility item = .contractCheckable) ≤
      items.countP fun item => (eligibility item).inManifest := by
  refine List.countP_mono_left fun item _ hc => ?_
  rw [of_decide_eq_true hc]
  rfl

theorem EligibilityRules.ne_excluded_iff {rules : EligibilityRules} {facts : TypeFacts Unit} {name : String}
    {eligibility : Eligibility} (h : outcomeOf (rules.classify facts name) = .ok eligibility) :
    eligibility ≠ .excluded ↔ rules.governs name = true := by
  by_cases hg : rules.governs name = true
  · refine iff_of_true ?_ hg
    rw [classify, if_neg (by simp [hg]), outcomeOf_bind, Except.bind_eq_ok_iff] at h
    obtain ⟨admitted, _, hrest⟩ := h
    cases admitted with
    | false =>
      cases hrest
      decide
    | true =>
      rw [if_pos rfl, outcomeOf_bind, Except.bind_eq_ok_iff] at hrest
      obtain ⟨checkable, _, he⟩ := hrest
      cases checkable <;> cases he <;> decide
  · refine iff_of_false ?_ hg
    rw [classify_of_not_governs hg] at h
    cases h
    decide

namespace Scanner

variable {σ : Type} {Good : σ → Prop} {scanner : Scanner} {facts : TypeFacts σ} {answers : TypeFacts Unit}
variable {tree : FileTree} {roots : List String} {result : ScanResult} {memory : σ}

/-- What becomes of the names of definitions by fixed answers, and the violations of those that are held to the
contract. -/
structure Judges (scanner : Scanner) (answers : TypeFacts Unit) (found : List Candidate)
    (eligibility : String → Eligibility) (broken : String → List Violation) : Prop where
  classified : ∀ candidate ∈ found,
    outcomeOf (scanner.rules.classify answers candidate.name) = .ok (eligibility candidate.name)
  checked : ∀ candidate ∈ found, eligibility candidate.name = .contractCheckable →
    outcomeOf (scanner.contract.check answers candidate.name) = .ok (broken candidate.name)

section Judged

variable {found : List Candidate} {eligibility : String → Eligibility} {broken : String → List Violation}

theorem Judges.governed (judges : scanner.Judges answers found eligibility broken) :
    (found.countP fun candidate => eligibility candidate.name ≠ .excluded) =
      found.countP fun candidate => scanner.rules.governs candidate.name := by
  refine List.countP_congr fun candidate hm => ?_
  rw [decide_eq_true_iff]
  exact EligibilityRules.ne_excluded_iff (judges.classified candidate hm)

theorem Judges.eligible_le (judges : scanner.Judges answers found eligibility broken) :
    (found.countP fun candidate => (eligibility candidate.name).inManifest) ≤
      found.countP fun candidate => scanner.rules.governs candidate.name := by
  refine List.countP_mono_left fun candidate hm hi => ?_
  refine (EligibilityRules.ne_excluded_iff (judges.classified candidate hm)).1 fun he => ?_
  rw [he] at hi
  cases hi

end Judged

section Outcome

variable {verdicts : Verdicts}

theorem tally_of_outcome (h : scanner.outcome tree verdicts roots = .ok result) :
    result.tally =
      { roots := roots.length
        candidates := (tree.findings roots).length
        included := (tree.findings roots).countP fun candidate =>
          (judged verdicts candidate.name).eligibility ≠ .excluded
        eligible := (tree.findings roots).countP fun candidate =>
          (judged verdicts candidate.name).eligibility.inManifest
        checked := (tree.findings roots).countP fun candidate =>
          (judged verdicts candidate.name).eligibility = .contractCheckable } := by
  obtain ⟨_, _, gathered, rfl, rfl⟩ := outcome_eq_ok_iff.1 h
  simp only [Gathered.noteAll, Gathered.countRoots, Gathered.nothing, Tally.zero, Nat.zero_add]

theorem violations_of_checked (h : scanner.outcome tree verdicts roots = .ok result) :
    result.violations = ((tree.findings roots).filter fun candidate =>
        (judged verdicts candidate.name).eligibility = .contractCheckable).flatMap fun candidate =>
      (judged verdicts candidate.name).violations := by
  rw [violations_of_outcome h]
  refine flatMap_filter_of_nil fun candidate hm hunchecked => ?_
  exact Verdicts.violations_eq_nil_of_judge (judge_of_found h hm) (of_decide_eq_false hunchecked)

theorem mem_manifest_of_outcome (h : scanner.outcome tree verdicts roots = .ok result) (name : String) :
    name ∈ result.manifest ↔ name ∈ ((tree.findings roots).filter fun candidate =>
      (judged verdicts candidate.name).eligibility.inManifest).map Candidate.name := by
  obtain ⟨_, _, gathered, rfl, rfl⟩ := outcome_eq_ok_iff.1 h
  simp only [Gathered.noteAll, Gathered.countRoots, Gathered.nothing, mem_foldl_insertName,
    List.not_mem_nil, false_or, List.mem_map]

theorem judges_of_outcome
    (h : scanner.outcome tree (.ofFacts scanner.rules scanner.contract answers) roots = .ok result) :
    scanner.Judges answers (tree.findings roots)
      (fun name => (judged (.ofFacts scanner.rules scanner.contract answers) name).eligibility)
      (fun name => (judged (.ofFacts scanner.rules scanner.contract answers) name).violations) where
  classified _ hm := Verdicts.of_judge (judge_of_found h hm)
  checked _ hm hc := Verdicts.violations_of_judge (judge_of_found h hm) hc

end Outcome

/-- The books of a scan with fixed answers that succeeds. They count each definition as often as it was found,
and the manifest lists the names of the eligible ones once, so that it is as long as their count only if none
of them was found twice. -/
theorem scan_keeps_books (follows : facts.Follows Good answers) (good : Good memory)
    (h : ((scanner.scan tree facts roots).run memory).1.1 = .ok result) :
    ∃ (eligibility : String → Eligibility) (broken : String → List Violation),
      scanner.Judges answers (tree.findings roots) eligibility broken ∧
      result.tally =
        { roots := roots.length
          candidates := (tree.findings roots).length
          included := (tree.findings roots).countP fun candidate => scanner.rules.governs candidate.name
          eligible := (tree.findings roots).countP fun candidate => (eligibility candidate.name).inManifest
          checked := (tree.findings roots).countP fun candidate =>
            eligibility candidate.name = .contractCheckable } ∧
      result.violations = ((tree.findings roots).filter fun candidate =>
        eligibility candidate.name = .contractCheckable).flatMap (fun candidate => broken candidate.name) ∧
      (result.manifest.Pairwise fun first second => Text.Utf8.encode first < Text.Utf8.encode second) ∧
      (∀ name, name ∈ result.manifest ↔ name ∈ ((tree.findings roots).filter fun candidate =>
        (eligibility candidate.name).inManifest).map Candidate.name) ∧
      result.tally.checked ≤ result.tally.eligible ∧ result.tally.eligible ≤ result.tally.included ∧
      result.tally.included ≤ result.tally.candidates ∧
      result.manifest.length ≤ result.tally.eligible ∧
      (result.manifest.length = result.tally.eligible ↔ (((tree.findings roots).filter fun candidate =>
        (eligibility candidate.name).inManifest).map Candidate.name).Nodup) := by
  rw [scan_gives follows.settled good] at h
  have houtcome := (ended_eq_ok_iff.1 h).2
  have judges := judges_of_outcome houtcome
  have htally := tally_of_outcome houtcome
  rw [judges.governed] at htally
  have hsorted := pairwise_manifest houtcome
  have hmanifest := mem_manifest_of_outcome houtcome
  have hlength := length_le_of_sorted hsorted hmanifest
  rw [List.length_map, ← List.countP_eq_length_filter] at hlength
  refine ⟨_, _, judges, htally, violations_of_checked houtcome, hsorted.imp Text.Utf8.encode_lt, hmanifest,
    ?_⟩
  rw [htally]
  exact ⟨countP_checkable_le _ _, judges.eligible_le, List.countP_le_length, hlength⟩

/-- A class that is found below two roots counts twice and is listed once. -/
theorem books_of_cyclicTree :
    let rules : EligibilityRules := ⟨["A", "B"], "java.io.Serializable", ["java.io.Externalizable"]⟩
    let scanner := Scanner.fresh rules (.version "serialVersionUID") "classes"
    let classpath := (Classpath.empty.addRoot Classpath.cyclicTree "lib").1
    let found := Classpath.cyclicTree.findings ["lib", "lib/B.class"]
    ∃ result eligibility broken,
      ((scanner.scan Classpath.cyclicTree (classpath.facts Classpath.cyclicTree) ["lib", "lib/B.class"]).run
        .empty).1.1 = .ok result ∧
      scanner.Judges (classpath.factsAfresh Classpath.cyclicTree) found eligibility broken ∧
      result.tally = ⟨2, 3, 3, 3, 1⟩ ∧ result.manifest = ["A", "B"] ∧
      ¬ ((found.filter fun candidate => (eligibility candidate.name).inManifest).map Candidate.name).Nodup := by
  intro rules scanner classpath found
  have hscanned : ((scanner.scan Classpath.cyclicTree (classpath.facts Classpath.cyclicTree)
      ["lib", "lib/B.class"]).run .empty).1.1.toOption.map (fun result => (result.tally, result.manifest)) =
        some (⟨2, 3, 3, 3, 1⟩, ["A", "B"]) := by
    decide +kernel
  obtain ⟨result, hr, hresult⟩ := Option.map_eq_some_iff.1 hscanned
  obtain ⟨htally, hmanifest⟩ := Prod.mk.inj hresult
  have hscan := Except.toOption_eq_some_iff.1 hr
  have built : classpath.Built := .addRoot .empty Classpath.cyclicTree "lib"
  obtain ⟨eligibility, broken, judges, _, _, _, _, _, _, _, _, hiff⟩ :=
    scan_keeps_books (Classpath.facts_follows built)
      (ClassCache.faithful_empty classpath Classpath.cyclicTree) hscan
  refine ⟨result, eligibility, broken, hscan, judges, htally, hmanifest, fun hnodup => ?_⟩
  have hsame := hiff.2 hnodup
  rw [htally, hmanifest] at hsame
  cases hsame

end Scanner

end SerialManifest

import SerialManifest.Proofs.ClasspathHierarchy
import SerialManifest.Proofs.NameJudgement
import SerialManifest.Proofs.NameOrder

namespace SerialManifest

namespace Classpath

variable {classpath : Classpath} {tree : FileTree} {rules : EligibilityRules} {name : String}

theorem admits_iff_reaches {admitted : Bool}
    (h : outcomeOf (rules.admits (classpath.factsAfresh tree) name) = .ok admitted) :
    admitted = true ↔ classpath.Reaches tree name rules.serializable ∧
      ∀ capability ∈ rules.excluded, ¬ classpath.Reaches tree name capability := by
  have answered := classpath.implements_answered tree name
  cases admitted with
  | true =>
    obtain ⟨hs, he⟩ := EligibilityRules.admits_eq_true_iff.1 h
    have hreach : classpath.Reaches tree name rules.serializable := (answered _).of_true hs
    have hnone : ∀ capability ∈ rules.excluded, ¬ classpath.Reaches tree name capability :=
      fun capability hm => ((answered _).of_false (he capability hm)).1
    exact iff_of_true rfl ⟨hreach, hnone⟩
  | false =>
    refine iff_of_false nofun ?_
    rintro ⟨hreach, hnone⟩
    rcases EligibilityRules.of_admits_eq_false h with hs | ⟨capability, hm, he⟩
    · exact ((answered _).of_false hs).1 hreach
    · exact hnone capability hm ((answered _).of_true he)

theorem inManifest_iff_reaches {eligibility : Eligibility}
    (h : outcomeOf (rules.classify (classpath.factsAfresh tree) name) = .ok eligibility) :
    eligibility.inManifest = true ↔ rules.governs name = true ∧
      classpath.Reaches tree name rules.serializable ∧
        ∀ capability ∈ rules.excluded, ¬ classpath.Reaches tree name capability := by
  rcases EligibilityRules.classified h with ⟨hm, hg⟩ | ⟨hg, ha⟩
  · simp [hm, hg]
  · rw [admits_iff_reaches ha]
    simp [hg]

end Classpath

theorem EligibilityRules.governs_iff {rules : EligibilityRules} {name : String} :
    rules.governs name = true ↔
      ∃ lead ∈ rules.namespaces, ∃ rest, name.toList = lead.toList ++ rest := by
  simp only [governs, List.any_eq_true, Text.startsWith_iff]

theorem FileTree.mem_findings {tree : FileTree} {roots : List String} {candidate : Candidate} :
    candidate ∈ tree.findings roots ↔ ∃ root ∈ roots, candidate ∈ (tree.walk root).found :=
  List.mem_flatMap

theorem Scanner.mem_manifest_iff {scanner : Scanner} {tree : FileTree} {verdicts : Verdicts}
    {roots : List String} {result : ScanResult} (h : scanner.outcome tree verdicts roots = .ok result)
    (name : String) : name ∈ result.manifest ↔
      (∃ root ∈ roots, ∃ candidate ∈ (tree.walk root).found, candidate.name = name) ∧
        ∃ judgement, verdicts.judge name = .ok judgement ∧ judgement.eligibility.inManifest = true := by
  have hjudged : ∀ candidate ∈ tree.findings roots,
      verdicts.judge candidate.name = .ok (judged verdicts candidate.name) :=
    fun _ => Scanner.judge_of_found h
  obtain ⟨_, _, gathered, rfl, rfl⟩ := Scanner.outcome_eq_ok_iff.1 h
  simp only [Gathered.noteAll, Gathered.countRoots, Gathered.nothing, mem_foldl_insertName,
    List.not_mem_nil, false_or, List.mem_filter]
  constructor
  · rintro ⟨candidate, ⟨hm, hi⟩, rfl⟩
    obtain ⟨root, hr, hc⟩ := FileTree.mem_findings.1 hm
    exact ⟨⟨root, hr, candidate, hc, rfl⟩, _, hjudged candidate hm, hi⟩
  · rintro ⟨⟨root, hr, candidate, hc, rfl⟩, judgement, hj, hi⟩
    have hm : candidate ∈ tree.findings roots := FileTree.mem_findings.2 ⟨root, hr, hc⟩
    cases (hjudged candidate hm).symm.trans hj
    exact ⟨candidate, ⟨hm, hi⟩, rfl⟩

theorem Verdicts.of_judge {verdicts : Verdicts} {name : String} {judgement : Judgement}
    (h : verdicts.judge name = .ok judgement) : verdicts.eligibility name = .ok judgement.eligibility := by
  obtain ⟨eligibility, he, hrest⟩ := Except.bind_eq_ok_iff.1 h
  split at hrest
  · obtain ⟨violations, _, rfl⟩ := Except.map_eq_ok_iff.1 hrest
    exact he
  · cases hrest
    exact he

/-- The types that a scan lists which puts its questions to a classpath. -/
theorem Scanner.mem_manifest_iff_reaches {scanner : Scanner} {classpath : Classpath} {tree : FileTree}
    {roots : List String} {result : ScanResult}
    (h : scanner.outcome tree (.ofFacts scanner.rules scanner.contract (classpath.factsAfresh tree)) roots =
      .ok result) (name : String) : name ∈ result.manifest ↔
      (∃ root ∈ roots, ∃ candidate ∈ (tree.walk root).found, candidate.name = name) ∧
        scanner.rules.governs name = true ∧ classpath.Reaches tree name scanner.rules.serializable ∧
          ∀ capability ∈ scanner.rules.excluded, ¬ classpath.Reaches tree name capability := by
  rw [mem_manifest_iff h]
  refine and_congr_right fun hfound => ?_
  obtain ⟨root, hr, candidate, hc, rfl⟩ := hfound
  have hj := judge_of_found h (FileTree.mem_findings.2 ⟨root, hr, hc⟩)
  rw [← Classpath.inManifest_iff_reaches (Verdicts.of_judge hj)]
  constructor
  · rintro ⟨other, ho, hi⟩
    cases hj.symm.trans ho
    exact hi
  · exact fun hi => ⟨_, hj, hi⟩

theorem Scanner.pairwise_manifest {scanner : Scanner} {tree : FileTree} {verdicts : Verdicts}
    {roots : List String} {result : ScanResult} (h : scanner.outcome tree verdicts roots = .ok result) :
    result.manifest.Pairwise (· < ·) := by
  obtain ⟨_, _, gathered, rfl, rfl⟩ := Scanner.outcome_eq_ok_iff.1 h
  exact pairwise_foldl_insertName .nil

theorem Scanner.examineAll_of_scan {σ : Type} {scanner : Scanner} {tree : FileTree} {facts : TypeFacts σ}
    {roots : List String} {memory : σ} {result : ScanResult}
    (h : ((scanner.scan tree facts roots).run memory).1.1 = .ok result) :
    (({ scanner with state := .scanning }.examineAll tree facts roots).run.run memory).1 = .ok result := by
  unfold Scanner.scan at h
  split at h
  · exact h
  · cases h

/-- The manifest of a scan over roots that were indexed: it lists the types found below the roots that have
a governed name, from which the capability can be reached and none of the excluded ones can, and it does so
in the order of their bytes. The first definition of a name is the one that counts. -/
theorem Scanner.manifest_of_scan {scanner : Scanner} {tree : FileTree} {roots leafTypes : List String}
    {table : List (String × List String)} {classpath : Classpath} {result : ScanResult}
    (hindexed : (Classpath.ofRoots tree roots).map
      (fun indexed => (indexed.withPlatformTypes table).withLeafTypes leafTypes) = .ok classpath)
    (hscan : ((scanner.scan tree (classpath.facts tree) roots).run .empty).1.1 = .ok result) :
    (∀ name, classpath.index.origin? name = Candidate.firstNamed? (tree.findings roots) name) ∧
      classpath.platformTypes = table ∧ classpath.leafTypes = leafTypes ∧
      (∀ name, name ∈ result.manifest ↔
        (∃ root ∈ roots, ∃ candidate ∈ (tree.walk root).found, candidate.name = name) ∧
          (∃ lead ∈ scanner.rules.namespaces, ∃ rest, name.toList = lead.toList ++ rest) ∧
          classpath.Reaches tree name scanner.rules.serializable ∧
          ∀ capability ∈ scanner.rules.excluded, ¬ classpath.Reaches tree name capability) ∧
      result.manifest.Pairwise fun first second => Text.Utf8.encode first < Text.Utf8.encode second := by
  obtain ⟨indexed, hroots, rfl⟩ := Except.map_eq_ok_iff.1 hindexed
  obtain ⟨_, he⟩ := Classpath.addRoots_eq_ok_iff.1 hroots
  refine ⟨fun name => ?_, rfl, by rw [he]; rfl, ?_⟩
  · have hfirst : indexed.index.origin? name = Candidate.firstNamed? (tree.findings roots) name := by
      rw [he]
      exact TypeIndex.origin?_insertAll .empty (tree.findings roots) name
    exact hfirst
  · have built := ((Classpath.Built.ofRoots hroots).withPlatformTypes table).withLeafTypes leafTypes
    generalize (indexed.withPlatformTypes table).withLeafTypes leafTypes = classpath at hscan built
    have houtcome := (Scanner.examineAll_gives (Classpath.facts_follows built).settled roots .empty
      (ClassCache.faithful_empty classpath tree)).1.symm.trans (Scanner.examineAll_of_scan hscan)
    refine ⟨fun name => ?_, (Scanner.pairwise_manifest houtcome).imp Text.Utf8.encode_lt⟩
    rw [Scanner.mem_manifest_iff_reaches houtcome, EligibilityRules.governs_iff]

/-- Types that extend each other are listed, one of them for an interface of the other. -/
theorem Scanner.manifest_of_cyclicTree :
    let rules : EligibilityRules := ⟨["A", "B"], "java.io.Serializable", ["java.io.Externalizable"]⟩
    let scanner := Scanner.fresh rules (.version "serialVersionUID") "classes"
    let indexed := (Classpath.empty.addRoot Classpath.cyclicTree "lib").1
    let classpath := (indexed.withPlatformTypes []).withLeafTypes []
    ∃ result,
      ((scanner.scan Classpath.cyclicTree (classpath.facts Classpath.cyclicTree) ["lib"]).run .empty).1.1 =
        .ok result ∧ result.manifest = ["A", "B"] ∧
      classpath.Reaches Classpath.cyclicTree "A" "java.io.Serializable" := by
  intro rules scanner indexed classpath
  have hscanned : ((scanner.scan Classpath.cyclicTree (classpath.facts Classpath.cyclicTree) ["lib"]).run
      .empty).1.1.toOption.map (·.manifest) = some ["A", "B"] := by
    decide +kernel
  obtain ⟨result, hr, hm⟩ := Option.map_eq_some_iff.1 hscanned
  have hscan := Except.toOption_eq_some_iff.1 hr
  have hroots : Classpath.ofRoots Classpath.cyclicTree ["lib"] =
      .ok (Classpath.empty.addRoot Classpath.cyclicTree "lib").1 := by
    refine Classpath.addRoots_eq_ok_iff.2 ⟨by decide +kernel, ?_⟩
    simp [Classpath.addRoot, FileTree.findings]
  have hindexed : (Classpath.ofRoots Classpath.cyclicTree ["lib"]).map
      (fun indexed => (indexed.withPlatformTypes []).withLeafTypes []) = .ok classpath := by
    rw [hroots]
    rfl
  obtain ⟨_, _, _, hlisted, _⟩ := Scanner.manifest_of_scan hindexed hscan
  have ha : "A" ∈ result.manifest := by
    rw [hm]
    exact List.mem_cons_self
  exact ⟨result, hscan, hm, ((hlisted "A").1 ha).2.2.1⟩

end SerialManifest

import Mathlib.Data.List.Sort
import SerialManifest.Proofs.ClasspathAgreement
import SerialManifest.Proofs.ManifestMembership
import SerialManifest.Proofs.ReorderedWalks
import SerialManifest.Proofs.RunOutputs

namespace SerialManifest

namespace Scanner

variable {scanner : Scanner} {first second : FileTree} {verdicts verdicts' : Verdicts} {roots : List String}
variable {result result' : ScanResult}

theorem manifest_ext (h : scanner.outcome first verdicts roots = .ok result)
    (h' : scanner.outcome second verdicts' roots = .ok result')
    (hm : ∀ name, name ∈ result.manifest ↔ name ∈ result'.manifest) : result.manifest = result'.manifest :=
  (pairwise_manifest h).eq_of_mem_iff (pairwise_manifest h') hm

theorem exists_outcome_iff :
    (∃ result, scanner.outcome first verdicts roots = .ok result ∧ result.violations = []) ↔
    (∀ root ∈ roots, (first.walk root).failure = none) ∧
      ∀ candidate ∈ first.findings roots, ∃ judgement,
        verdicts.judge candidate.name = .ok judgement ∧ judgement.violations = [] := by
  constructor
  · rintro ⟨result, h, hv⟩
    obtain ⟨hwalks, hall, gathered, rfl, rfl⟩ := outcome_eq_ok_iff.1 h
    refine ⟨hwalks, fun candidate hm => ?_⟩
    obtain ⟨judgement, hj⟩ := hall candidate hm
    have hnone := List.flatMap_eq_nil_iff.1 (List.append_eq_nil_iff.1 hv).2 candidate hm
    rw [judged_of_judge hj] at hnone
    exact ⟨judgement, hj, hnone⟩
  · rintro ⟨hwalks, hall⟩
    have hjudged : ∀ candidate ∈ first.findings roots, ∃ judgement,
        verdicts.judge candidate.name = .ok judgement :=
      fun candidate hm => (hall candidate hm).imp fun _ h => h.1
    refine ⟨_, outcome_eq_ok_iff.2 ⟨hwalks, hjudged, _, rfl, rfl⟩, ?_⟩
    refine List.append_eq_nil_iff.2 ⟨rfl, List.flatMap_eq_nil_iff.2 fun candidate hm => ?_⟩
    obtain ⟨judgement, hj, hv⟩ := hall candidate hm
    rw [judged_of_judge hj, hv]

end Scanner

namespace Settings

variable {settings : Settings} {first second : FileTree}

/-- Nothing is held against a type: it can be classified, and if it is held to the contract it honours
it. -/
def Passes (settings : Settings) (classpath : Classpath) (tree : FileTree) (name : String) : Prop :=
  ∃ eligibility, outcomeOf (settings.rules.classify (classpath.factsAfresh tree) name) = .ok eligibility ∧
    (eligibility = .contractCheckable →
      outcomeOf (settings.contract.check (classpath.factsAfresh tree) name) = .ok [])

/-- A type has the capability that is asked for and none of the excluded ones. -/
def Lists (settings : Settings) (classpath : Classpath) (tree : FileTree) (name : String) : Prop :=
  classpath.Reaches tree name settings.rules.serializable ∧
    ∀ capability ∈ settings.rules.excluded, ¬ classpath.Reaches tree name capability

/-- Nothing is held against any governed type in the second tree, and it is listed there if and only if it is
in the first. -/
def SameVerdicts (settings : Settings) (first second : FileTree) : Prop :=
  ∀ classpath other, settings.types first = .ok classpath → settings.types second = .ok other →
    ∀ candidate ∈ first.findings settings.classpath, settings.rules.governs candidate.name = true →
      settings.Passes other second candidate.name ∧
        (settings.Lists other second candidate.name ↔ settings.Lists classpath first candidate.name)

/-- Two classpaths give the same class file for every type that can be reached from a governed type below
the roots. -/
def SameDefinitions (settings : Settings) (first second : FileTree) : Prop :=
  ∀ classpath other, settings.types first = .ok classpath → settings.types second = .ok other →
    ∀ candidate ∈ first.findings settings.classpath, settings.rules.governs candidate.name = true →
      ∀ type file, classpath.Reaches first candidate.name type →
        classpath.definition first type = .ok (some file) → other.definition second type = .ok (some file)

/-- Definitions of one type below one root have the same class file. -/
def Uncontested (settings : Settings) (tree : FileTree) : Prop :=
  ∀ root ∈ settings.classpath, ∀ candidate ∈ (tree.walk root).found, ∀ other ∈ (tree.walk root).found,
    candidate.name = other.name → tree.classFileAt? candidate.origin = tree.classFileAt? other.origin

theorem types_eq_ok_iff {tree : FileTree} {classpath : Classpath} :
    settings.types tree = .ok classpath ↔ (∀ root ∈ settings.classpath, (tree.walk root).failure = none) ∧
      classpath = ⟨TypeIndex.empty.insertAll (tree.findings settings.classpath), settings.platformTypes,
        settings.leafTypes⟩ := by
  change (Classpath.ofRoots tree settings.classpath).bind _ = .ok classpath ↔ _
  rw [Except.bind_eq_ok_iff, Classpath.ofRoots]
  simp only [Classpath.addRoots_eq_ok_iff]
  constructor
  · rintro ⟨_, ⟨hw, rfl⟩, he⟩
    exact ⟨hw, (Except.ok.inj he).symm⟩
  · rintro ⟨hw, rfl⟩
    exact ⟨_, ⟨hw, rfl⟩, rfl⟩

theorem built_of_types {tree : FileTree} {classpath : Classpath} (h : settings.types tree = .ok classpath) :
    classpath.Built := by
  obtain ⟨indexed, hi, he⟩ := Except.bind_eq_ok_iff.1 h
  cases he
  exact ((Classpath.Built.ofRoots hi).withPlatformTypes _).withLeafTypes _

theorem scan_eq_ok_iff {tree : FileTree} {result : ScanResult} :
    settings.scan tree = .ok result ↔ ∃ classpath, settings.types tree = .ok classpath ∧
      settings.scanner.outcome tree
        (.ofFacts settings.rules settings.contract (classpath.factsAfresh tree)) settings.classpath =
          .ok result := by
  unfold scan
  cases ht : settings.types tree with
  | error error => simp
  | ok classpath =>
    have follows : (classpath.facts tree).Follows (ClassCache.Faithful classpath tree)
        (classpath.factsAfresh tree) := Classpath.facts_follows (built_of_types ht)
    have hrun : ((settings.scanner.scan tree (classpath.facts tree) settings.classpath).run .empty).1.1 =
        settings.scanner.outcome tree
          (.ofFacts settings.rules settings.contract (classpath.factsAfresh tree)) settings.classpath :=
      (Scanner.examineAll_gives follows.settled settings.classpath .empty
        (ClassCache.faithful_empty classpath tree)).1
    simp only [hrun, Except.ok.injEq, exists_eq_left']

theorem passes_iff {classpath : Classpath} {tree : FileTree} {name : String} :
    settings.Passes classpath tree name ↔ ∃ judgement,
      (Verdicts.ofFacts settings.rules settings.contract (classpath.factsAfresh tree)).judge name =
        .ok judgement ∧ judgement.violations = [] := by
  simp only [Passes, Verdicts.judge, Verdicts.ofFacts, Except.bind_eq_ok_iff]
  constructor
  · rintro ⟨eligibility, he, hc⟩
    by_cases h : eligibility = .contractCheckable
    · exact ⟨⟨eligibility, []⟩, ⟨eligibility, he, by rw [if_pos h, hc h]; rfl⟩, rfl⟩
    · exact ⟨⟨eligibility, []⟩, ⟨eligibility, he, if_neg h⟩, rfl⟩
  · rintro ⟨judgement, ⟨eligibility, he, hj⟩, hv⟩
    refine ⟨eligibility, he, fun h => ?_⟩
    rw [if_pos h] at hj
    obtain ⟨violations, hviolations, rfl⟩ := Except.map_eq_ok_iff.1 hj
    rw [hviolations, ← hv]

theorem passes_of_not_governs {classpath : Classpath} {tree : FileTree} {name : String}
    (h : ¬ settings.rules.governs name = true) : settings.Passes classpath tree name := by
  have hclassify : settings.rules.classify (classpath.factsAfresh tree) name = pure .excluded :=
    EligibilityRules.classify_of_not_governs h
  exact ⟨.excluded, by rw [hclassify]; rfl, nofun⟩

/-- A scan finds no violations if nothing is held against the types found. -/
theorem exists_scan_iff {tree : FileTree} :
    (∃ result, settings.scan tree = .ok result ∧ result.violations = []) ↔
    ∃ classpath, settings.types tree = .ok classpath ∧
      ∀ candidate ∈ tree.findings settings.classpath, settings.Passes classpath tree candidate.name := by
  simp only [scan_eq_ok_iff, passes_iff]
  constructor
  · rintro ⟨result, ⟨classpath, ht, hs⟩, hv⟩
    exact ⟨classpath, ht, (Scanner.exists_outcome_iff.1 ⟨result, hs, hv⟩).2⟩
  · rintro ⟨classpath, ht, hall⟩
    obtain ⟨result, hs, hv⟩ := Scanner.exists_outcome_iff.2 ⟨(types_eq_ok_iff.1 ht).1, hall⟩
    exact ⟨result, ⟨classpath, ht, hs⟩, hv⟩

theorem mem_manifest_iff {tree : FileTree} {classpath : Classpath} {result : ScanResult}
    (ht : settings.types tree = .ok classpath) (h : settings.scan tree = .ok result) {name : String} :
    name ∈ result.manifest ↔ (∃ candidate ∈ tree.findings settings.classpath, candidate.name = name) ∧
      settings.rules.governs name = true ∧ settings.Lists classpath tree name := by
  obtain ⟨other, ho, hs⟩ := scan_eq_ok_iff.1 h
  cases ht.symm.trans ho
  rw [Scanner.mem_manifest_iff_reaches hs]
  refine and_congr_left' ?_
  simp only [FileTree.mem_findings]
  constructor
  · rintro ⟨root, hr, candidate, hc, he⟩
    exact ⟨candidate, ⟨root, hr, hc⟩, he⟩
  · rintro ⟨candidate, ⟨root, hr, hc⟩, he⟩
    exact ⟨root, hr, candidate, hc, he⟩

theorem types_of_same (same : first.SameContents second) {classpath : Classpath}
    (h : settings.types first = .ok classpath) : ∃ other, settings.types second = .ok other ∧
      (first.findings settings.classpath).Perm (second.findings settings.classpath) := by
  obtain ⟨hwalks, _⟩ := types_eq_ok_iff.1 h
  have hwalks' : ∀ root ∈ settings.classpath, (second.walk root).failure = none :=
    fun root hm => (same.walk_perm (hwalks root hm)).1
  exact ⟨_, types_eq_ok_iff.2 ⟨hwalks', rfl⟩, same.findings_perm (.refl _) hwalks⟩

/-- A scan of the second tree finds no violations and lists the same, if and only if the verdicts are the
same. -/
theorem exists_scan_iff_sameVerdicts (same : first.SameContents second) {result : ScanResult}
    (h : settings.scan first = .ok result) :
    (∃ result', settings.scan second = .ok result' ∧ result'.violations = [] ∧
      result'.manifest = result.manifest) ↔ settings.SameVerdicts first second := by
  obtain ⟨classpath, ht, hs⟩ := scan_eq_ok_iff.1 h
  obtain ⟨other, ho, hperm⟩ := types_of_same same ht
  constructor
  · rintro ⟨result', h', hv, hm⟩ _ _ ht' ho' candidate hc hg
    cases ht.symm.trans ht'
    cases ho.symm.trans ho'
    obtain ⟨_, ho', hall⟩ := exists_scan_iff.1 ⟨result', h', hv⟩
    cases ho.symm.trans ho'
    refine ⟨hall candidate (hperm.mem_iff.1 hc), ?_⟩
    have hfound : ∃ found ∈ first.findings settings.classpath, found.name = candidate.name :=
      ⟨candidate, hc, rfl⟩
    have hfound' : ∃ found ∈ second.findings settings.classpath, found.name = candidate.name :=
      ⟨candidate, hperm.mem_iff.1 hc, rfl⟩
    have hlisted : candidate.name ∈ result'.manifest ↔ _ := mem_manifest_iff ho h'
    rw [hm, mem_manifest_iff ht h] at hlisted
    simp only [hfound, hfound', hg, true_and] at hlisted
    exact hlisted.symm
  · intro verdicts
    -- types that are not governed pass unseen, so the verdicts on the others are enough
    have hpasses : ∀ candidate ∈ second.findings settings.classpath,
        settings.Passes other second candidate.name := by
      intro candidate hc
      by_cases hg : settings.rules.governs candidate.name = true
      · exact (verdicts classpath other ht ho candidate (hperm.mem_iff.2 hc) hg).1
      · exact passes_of_not_governs hg
    obtain ⟨result', h', hv⟩ := exists_scan_iff.2 ⟨other, ho, hpasses⟩
    obtain ⟨_, ho', hs'⟩ := scan_eq_ok_iff.1 h'
    refine ⟨result', h', hv, Scanner.manifest_ext hs' hs fun name => ?_⟩
    rw [mem_manifest_iff ho h', mem_manifest_iff ht h]
    simp only [← hperm.mem_iff]
    refine and_congr_right fun hfound => and_congr_right fun hg => ?_
    obtain ⟨candidate, hc, rfl⟩ := hfound
    exact (verdicts classpath other ht ho candidate hc hg).2

/-- The first that is found in one list and the first that is found in the other have a root in common. -/
theorem find?_of_perm {α β : Type} {roots : List α} {found found' : α → List β} {p : β → Bool} {item : β}
    (hp : ∀ root ∈ roots, (found root).Perm (found' root))
    (h : (roots.flatMap found).find? p = some item) :
    ∃ root ∈ roots, ∃ other, (roots.flatMap found').find? p = some other ∧
      item ∈ found root ∧ other ∈ found' root := by
  induction roots with
  | nil => simp at h
  | cons root roots ih =>
    have hroot := hp root List.mem_cons_self
    rw [List.flatMap_cons, List.find?_append] at h
    rw [List.flatMap_cons, List.find?_append]
    cases hf : (found root).find? p with
    | some first =>
      rw [hf] at h
      cases h
      have hm := List.mem_of_find?_eq_some hf
      have hsome : ((found' root).find? p).isSome = true :=
        List.find?_isSome.2 ⟨item, hroot.mem_iff.1 hm, List.find?_some hf⟩
      obtain ⟨other, ho⟩ := Option.isSome_iff_exists.1 hsome
      exact ⟨root, List.mem_cons_self, other, by rw [ho]; rfl, hm, List.mem_of_find?_eq_some ho⟩
    | none =>
      have hnone : (found' root).find? p = none := by
        rw [List.find?_eq_none] at hf ⊢
        exact fun other ho => hf other (hroot.mem_iff.2 ho)
      rw [hf] at h
      rw [hnone]
      obtain ⟨inner, hm, other, ho, hboth⟩ := ih (fun inner hm => hp inner (List.mem_cons_of_mem root hm)) h
      exact ⟨inner, List.mem_cons_of_mem root hm, other, ho, hboth⟩

/-- Where no root has differing definitions of a type, it does not matter which one is found first. -/
theorem sameDefinitions_of_uncontested (same : first.SameContents second)
    (uncontested : settings.Uncontested first) : settings.SameDefinitions first second := by
  intro classpath other ht ho _ _ _ type file _ hd
  obtain ⟨hwalks, rfl⟩ := types_eq_ok_iff.1 ht
  obtain ⟨_, rfl⟩ := types_eq_ok_iff.1 ho
  rw [Classpath.definition_eq_some_iff] at hd ⊢
  obtain ⟨origin, horigin, hfile⟩ := hd
  have hfirst : ∀ tree : FileTree,
      (TypeIndex.empty.insertAll (tree.findings settings.classpath)).origin? type =
        Candidate.firstNamed? (tree.findings settings.classpath) type :=
    fun tree => TypeIndex.origin?_insertAll _ _ _
  rw [hfirst] at horigin ⊢
  obtain ⟨candidate, hf, rfl⟩ := Option.map_eq_some_iff.1 horigin
  obtain ⟨root, hr, found, hfound, hm, hm'⟩ :=
    find?_of_perm (fun root hm => (same.walk_perm (hwalks root hm)).2) hf
  have hname : candidate.name = found.name := by
    have hc : candidate.name = type := by simpa using List.find?_some hf
    have hf : found.name = type := by simpa using List.find?_some hfound
    rw [hc, hf]
  refine ⟨found.origin, Option.map_eq_some_iff.2 ⟨found, hfound, rfl⟩, ?_⟩
  have hperm := (same.walk_perm (hwalks root hr)).2
  rw [← same.classFileAt?, ← uncontested root hr candidate hm found (hperm.mem_iff.2 hm') hname]
  exact hfile

theorem agreesFrom {classpath other : Classpath} (same : first.SameContents second)
    (agree : settings.SameDefinitions first second) (ht : settings.types first = .ok classpath)
    (ho : settings.types second = .ok other) {candidate : Candidate}
    (hm : candidate ∈ first.findings settings.classpath)
    (hg : settings.rules.governs candidate.name = true) :
    classpath.AgreesFrom first other second candidate.name := by
  have definitions := agree classpath other ht ho candidate hm hg
  obtain ⟨hwalks, rfl⟩ := types_eq_ok_iff.1 ht
  obtain ⟨_, rfl⟩ := types_eq_ok_iff.1 ho
  refine ⟨fun type => ?_, rfl, rfl, definitions⟩
  have hperm := same.findings_perm (.refl _) hwalks
  simp only [TypeIndex.mem_names_insertAll, hperm.mem_iff]

theorem sameVerdicts_of_sameDefinitions (same : first.SameContents second)
    (agree : settings.SameDefinitions first second) {result : ScanResult}
    (h : settings.scan first = .ok result) (hv : result.violations = []) :
    settings.SameVerdicts first second := by
  intro classpath other ht ho candidate hc hg
  have carries := (agreesFrom same agree ht ho hc hg).facts_carries
  obtain ⟨_, ht', hall⟩ := exists_scan_iff.1 ⟨result, h, hv⟩
  cases ht.symm.trans ht'
  obtain ⟨eligibility, he, hcheck⟩ := hall candidate hc
  have he' := carries.classify eligibility he
  refine ⟨⟨eligibility, he', fun hcheckable => carries.check [] (hcheck hcheckable)⟩, ?_⟩
  have hlists := Classpath.inManifest_iff_reaches he
  have hlists' := Classpath.inManifest_iff_reaches he'
  simp only [hg, true_and] at hlists hlists'
  exact hlists'.symm.trans hlists

/-- Two trees on one disk that hold the same, the first of which a run succeeds on: on the second it succeeds with
the same manifest if and only if the verdicts are the same. -/
theorem generate_of_sameContents (same : first.SameContents second) (hdisk : first.disk = second.disk)
    {result : ScanResult} {ended : RunState}
    (h : settings.generate.onFiles first = (.ok result, ended)) :
    (∃ result' ended', settings.generate.onFiles second = (.ok result', ended') ∧
      result'.manifest = result.manifest ∧
      ended'.files.readBytes settings.manifestFile = ended.files.readBytes settings.manifestFile) ↔
    settings.SameVerdicts first second := by
  obtain ⟨hvalid, hscan, hrecord⟩ := onFiles_generate_eq_ok_iff.1 h
  obtain ⟨hv, hholds⟩ := of_record hrecord
  rw [← exists_scan_iff_sameVerdicts same hscan]
  constructor
  · rintro ⟨result', ended', h', hm, _⟩
    obtain ⟨_, hscan', hrecord'⟩ := onFiles_generate_eq_ok_iff.1 h'
    exact ⟨result', hscan', (of_record hrecord').1, hm⟩
  · rintro ⟨result', hscan', hv', hm⟩
    have hinto : result.intoManifest = result'.intoManifest := by
      rw [ScanResult.intoManifest_eq_ok_iff.2 ⟨hv, rfl⟩, ScanResult.intoManifest_eq_ok_iff.2 ⟨hv', hm⟩]
    have hmatches : Matches RunState.SameForWriting (settings.record result) (settings.record result') :=
      record_matches hinto
    obtain ⟨hr, hshape⟩ := hmatches ⟨first, ""⟩ ⟨second, ""⟩ (same.forWriting hdisk)
    rw [hrecord] at hr hshape
    generalize hafter : (settings.record result').run.run ⟨second, ""⟩ = after at hr hshape
    obtain ⟨outcome, ended'⟩ := after
    cases hr
    obtain ⟨_, hholds'⟩ := of_record hafter
    rw [hm] at hholds'
    exact ⟨result', ended', onFiles_generate_eq_ok_iff.2 ⟨hvalid, hscan', hafter⟩, hm,
      (hshape.toSameShape.readBytes hholds hholds').symm⟩

/-- Settings for the types `A` and `B`, which are not the product's own. -/
def sample : Settings where
  basePath := "out"
  manifestPath := "names"
  header := "#"
  namespaces := ["org.", "A", "B"]
  classpath := ["lib"]
  serializable := "java.io.Serializable"
  excluded := ["java.io.Externalizable"]
  versionField := "serialVersionUID"
  platformTypes := []
  leafTypes := []
  quiet := true
  summaryFile := none

/-- Types that extend each other, the other one being shown first. -/
def cyclicTree' : FileTree :=
  .ofFiles "lib" [
    ("B.class", ClassFile.plainBytes "B" "A" ["java.io.Serializable"]),
    ("A.class", ClassFile.plainBytes "A" "B" [])]

theorem sameContents_cyclicTree : Classpath.cyclicTree.SameContents cyclicTree' :=
  .of_perm rfl ((List.Perm.swap _ _ []).cons _)

theorem generate_of_cyclicTree : ∃ result ended result' ended',
    sample.generate.onFiles Classpath.cyclicTree = (.ok result, ended) ∧
      sample.generate.onFiles cyclicTree' = (.ok result', ended') ∧ result'.manifest = result.manifest ∧
      ended'.files.readBytes sample.manifestFile = ended.files.readBytes sample.manifestFile := by
  have hsucceeds : (sample.generate.onFiles Classpath.cyclicTree).1.toOption.isSome = true := by
    decide +kernel
  have huncontested : sample.Uncontested Classpath.cyclicTree := by
    unfold Uncontested
    decide +kernel
  obtain ⟨result, hr⟩ := Except.isSome_toOption_iff.1 hsucceeds
  obtain ⟨ended, hrun⟩ : ∃ ended, sample.generate.onFiles Classpath.cyclicTree = (.ok result, ended) :=
    ⟨_, Prod.ext hr rfl⟩
  obtain ⟨_, hscan, hrecord⟩ := onFiles_generate_eq_ok_iff.1 hrun
  have verdicts : sample.SameVerdicts Classpath.cyclicTree cyclicTree' :=
    sameVerdicts_of_sameDefinitions sameContents_cyclicTree
      (sameDefinitions_of_uncontested sameContents_cyclicTree huncontested) hscan (of_record hrecord).1
  obtain ⟨result', ended', hrun', hm, hbytes⟩ :=
    (generate_of_sameContents sameContents_cyclicTree rfl hrun).2 verdicts
  exact ⟨result, ended, result', ended', hrun, hrun', hm, hbytes⟩

/-- Two definitions of one type below one root, only one of which has the capability. -/
def contestedTree (first second : String × List UInt8) : FileTree :=
  .ofFiles "lib" [first, second]

/-- The order in which a directory shows its children may decide what the manifest lists. -/
theorem manifest_of_contestedTree :
    let serializable := ("A.class", ClassFile.plainBytes "A" "java.lang.Object" ["java.io.Serializable"])
    let plain := ("A.CLASS", ClassFile.plainBytes "A" "java.lang.Object" [])
    let first := contestedTree serializable plain
    let second := contestedTree plain serializable
    first.SameContents second ∧
      (sample.generate.onFiles first).1.toOption.map (·.manifest) = some ["A"] ∧
      (sample.generate.onFiles second).1.toOption.map (·.manifest) = some [] ∧
      ((sample.generate.onFiles first).2.files.readBytes sample.manifestFile).toOption ≠
        ((sample.generate.onFiles second).2.files.readBytes sample.manifestFile).toOption := by
  refine ⟨.of_perm rfl ((List.Perm.swap _ _ []).cons _), ?_, ?_, ?_⟩
  · decide +kernel
  · decide +kernel
  · decide +kernel

end Settings

end SerialManifest

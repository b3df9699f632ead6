import SerialManifest.Proofs.ClasspathAgreement
import SerialManifest.Proofs.SameListings
import SerialManifest.Proofs.SupplementedTree

namespace SerialManifest

/-- A scan that takes the definitions in order comes to this one if all before it can be judged. -/
def Verdicts.Visits (verdicts : Verdicts) (candidates : List Candidate) (candidate : Candidate) : Prop :=
  ∃ before after, candidates = before ++ candidate :: after ∧
    ∀ earlier ∈ before, ∃ judgement, verdicts.judge earlier.name = .ok judgement

theorem Verdicts.Visits.cons {verdicts : Verdicts} {candidates : List Candidate} {candidate first : Candidate}
    {judgement : Judgement} (h : verdicts.Visits candidates candidate)
    (hj : verdicts.judge first.name = .ok judgement) : verdicts.Visits (first :: candidates) candidate := by
  obtain ⟨before, after, rfl, hall⟩ := h
  exact ⟨first :: before, after, rfl, List.forall_mem_cons.2 ⟨⟨judgement, hj⟩, hall⟩⟩

theorem Verdicts.Visits.mem {verdicts : Verdicts} {candidates : List Candidate} {candidate : Candidate}
    (h : verdicts.Visits candidates candidate) : candidate ∈ candidates := by
  obtain ⟨before, after, rfl, _⟩ := h
  simp

theorem Verdicts.judge_of_not_governs {rules : EligibilityRules} {contract : FieldContract}
    {facts : TypeFacts Unit} {name : String} (h : ¬ rules.governs name = true) :
    (ofFacts rules contract facts).judge name = .ok ⟨.excluded, []⟩ := by
  have heligibility : (ofFacts rules contract facts).eligibility name = .ok .excluded := by
    simp only [ofFacts, EligibilityRules.classify_of_not_governs h, outcomeOf_pure]
  rw [judge, heligibility]
  rfl

namespace Scanner

variable {scanner : Scanner} {first second tree : FileTree} {verdicts verdicts' : Verdicts}
variable {roots : List String}

theorem examined_countRoots (gathered : Gathered) (count : Nat) (candidate : Candidate) :
    examined verdicts (gathered.countRoots count) candidate =
      (examined verdicts gathered candidate).map (·.countRoots count) := by
  unfold examined
  cases verdicts.judge candidate.name <;> rfl

theorem foldlM_examined_countRoots (gathered : Gathered) (count : Nat) (candidates : List Candidate) :
    candidates.foldlM (examined verdicts) (gathered.countRoots count) =
      (candidates.foldlM (examined verdicts) gathered).map (·.countRoots count) := by
  induction candidates generalizing gathered with
  | nil => rfl
  | cons candidate rest ih =>
    rw [List.foldlM_cons, List.foldlM_cons, examined_countRoots]
    cases examined verdicts gathered candidate with
    | error error => rfl
    | ok next => exact ih next

/-- Where no walk fails, going through the roots is going through all that is found below them. -/
theorem foldlM_examinedRoot_of_walks (hwalks : ∀ root ∈ roots, (tree.walk root).failure = none)
    (gathered : Gathered) : roots.foldlM (examinedRoot tree verdicts) gathered =
      (tree.findings roots).foldlM (examined verdicts) (gathered.countRoots roots.length) := by
  induction roots generalizing gathered with
  | nil => rfl
  | cons root roots ih =>
    have hcount : gathered.countRoots (root :: roots).length =
        (gathered.countRoots 1).countRoots roots.length := by
      simp [Gathered.countRoots, Nat.add_assoc, Nat.add_comm 1]
    rw [List.foldlM_cons, FileTree.findings, List.flatMap_cons, List.foldlM_append, hcount,
      foldlM_examined_countRoots, examinedRoot, hwalks root List.mem_cons_self]
    change Except.bind (Except.bind ((tree.walk root).found.foldlM (examined verdicts)
      (gathered.countRoots 1)) _) _ = Except.bind (Except.map _ _) _
    cases (tree.walk root).found.foldlM (examined verdicts) (gathered.countRoots 1) with
    | error error => rfl
    | ok last => exact ih (fun other hm => hwalks other (List.mem_cons_of_mem root hm)) last

theorem foldlM_examined_congr {candidates : List Candidate} (gathered : Gathered)
    (h : ∀ candidate, verdicts.Visits candidates candidate →
      verdicts.judge candidate.name = verdicts'.judge candidate.name) :
    candidates.foldlM (examined verdicts) gathered = candidates.foldlM (examined verdicts') gathered := by
  induction candidates generalizing gathered with
  | nil => rfl
  | cons candidate rest ih =>
    have hfirst : verdicts.judge candidate.name = verdicts'.judge candidate.name :=
      h candidate ⟨[], rest, rfl, nofun⟩
    have hexamined : examined verdicts gathered candidate = examined verdicts' gathered candidate := by
      rw [examined, examined, hfirst]
    rw [List.foldlM_cons, List.foldlM_cons, ← hexamined]
    cases hj : verdicts.judge candidate.name with
    | error error => rw [examined, hj]; rfl
    | ok judgement =>
      rw [examined, hj]
      exact ih _ fun other ho => h other (ho.cons hj)

theorem outcome_congr (hwalks : ∀ root ∈ roots, (tree.walk root).failure = none)
    (h : ∀ candidate, verdicts.Visits (tree.findings roots) candidate →
      verdicts.judge candidate.name = verdicts'.judge candidate.name) :
    scanner.outcome tree verdicts roots = scanner.outcome tree verdicts' roots := by
  rw [outcome, outcome, foldlM_examinedRoot_of_walks hwalks, foldlM_examinedRoot_of_walks hwalks,
    foldlM_examined_congr _ h]

theorem outcome_of_sameListings (same : first.SameListings second) (roots : List String) :
    scanner.outcome first verdicts roots = scanner.outcome second verdicts roots := by
  have hroot : examinedRoot first verdicts = examinedRoot second verdicts := by
    funext gathered root
    rw [examinedRoot, examinedRoot, same.walk]
  rw [outcome, outcome, hroot]

end Scanner

namespace Classpath

variable {classpath : Classpath} {first second : FileTree} {name : String}

theorem mem_of_reaches {tree : FileTree} {types : List String} {type : String}
    (closed : ∀ type ∈ types, ∀ supertype ∈ (classpath.supertypes? tree type).getD [], supertype ∈ types)
    (hm : name ∈ types) (hr : classpath.Reaches tree name type) : type ∈ types := by
  induction hr with
  | refl => exact hm
  | tail _ hs ih =>
    obtain ⟨supertypes, he, hs⟩ := hs
    refine closed _ ih _ ?_
    rw [he]
    exact hs

/-- The definitions of all types that can be reached from a type are as they were. -/
def Spares (classpath : Classpath) (first second : FileTree) (name : String) : Prop :=
  ∀ type, classpath.Reaches first name type → ∀ origin, classpath.index.origin? type = some origin →
    first.definitionBytes origin = second.definitionBytes origin

theorem Spares.definition (spares : classpath.Spares first second name) {type : String}
    (hr : classpath.Reaches first name type) :
    classpath.definition first type = classpath.definition second type := by
  unfold Classpath.definition
  cases ho : classpath.index.origin? type with
  | none => rfl
  | some origin =>
    have hbytes := spares type hr origin ho
    simp only [hbytes]

theorem Spares.hierarchy (spares : classpath.Spares first second name) :
    (classpath.hierarchyAfresh first).Resembles (fun _ => False) (classpath.hierarchyAfresh second) name where
  defined _ := .rfl
  isLeaf := rfl
  above type hr := by
    rw [reaches_eq] at hr
    rw [above_eq, above_eq, spares.definition hr]
    exact .same _

theorem Spares.required (spares : classpath.Spares first second name) :
    classpath.requiredAfresh first name = classpath.requiredAfresh second name := by
  rw [requiredAfresh, requiredAfresh, spares.definition .refl]

theorem Spares.told {α : Type} (spares : classpath.Spares first second name) (tell : ClassFile → α) :
    SameUnless (fun _ => False) (outcomeOf (do return tell (← classpath.requiredAfresh first name)))
      (outcomeOf (do return tell (← classpath.requiredAfresh second name))) := by
  rw [spares.required]
  exact .same _

theorem Spares.relates (spares : classpath.Spares first second name) :
    (classpath.factsAfresh first).Relates
      (fun action plain => SameUnless (fun _ => False) (outcomeOf action) (outcomeOf plain))
      (classpath.factsAfresh second) name where
  kind := spares.told kindOf
  isAbstract := spares.told (·.access.isAbstract)
  simpleName := spares.told (·.simpleName)
  implements capability := by
    simp only [factsAfresh, spares.required, outcomeOf_bind]
    refine SameUnless.bind (.same _) fun _ _ => ?_
    exact (spares.hierarchy.search capability).bind fun _ _ => .same _
  field? field := spares.told (·.field? field)

theorem Spares.judge (spares : classpath.Spares first second name) (rules : EligibilityRules)
    (contract : FieldContract) :
    (Verdicts.ofFacts rules contract (classpath.factsAfresh first)).judge name =
      (Verdicts.ofFacts rules contract (classpath.factsAfresh second)).judge name :=
  (Verdicts.judge_sameUnless spares.relates rules contract).eq_of_not_excused fun _ _ => id

end Classpath

namespace Scanner

variable {first second : FileTree} {roots leafTypes : List String} {table : List (String × List String)}

def scanIndexed (scanner : Scanner) (tree : FileTree) (roots : List String)
    (table : List (String × List String)) (leafTypes : List String) :
    Except WalkError (Except ScanError ScanResult × Scanner) :=
  (Classpath.ofRoots tree roots).map fun indexed =>
    let classpath := (indexed.withPlatformTypes table).withLeafTypes leafTypes
    ((scanner.scan tree (classpath.facts tree) roots).run .empty).1

theorem scan_afresh {scanner : Scanner} {classpath : Classpath} (built : classpath.Built) (tree : FileTree)
    (roots : List String) : ((scanner.scan tree (classpath.facts tree) roots).run .empty).1 =
      scanner.ended (scanner.outcome tree
        (.ofFacts scanner.rules scanner.contract (classpath.factsAfresh tree)) roots) :=
  scan_gives (Classpath.facts_follows built).settled (ClassCache.faithful_empty classpath tree) roots

theorem scan_eq_of_spares {scanner : Scanner} {classpath : Classpath} (same : first.SameListings second)
    (built : classpath.Built) (hwalks : ∀ root ∈ roots, (first.walk root).failure = none)
    (hspares : ∀ candidate, scanner.rules.governs candidate.name = true →
      (Verdicts.ofFacts scanner.rules scanner.contract (classpath.factsAfresh first)).Visits
        (first.findings roots) candidate →
      classpath.Spares first second candidate.name) :
    ((scanner.scan first (classpath.facts first) roots).run .empty).1 =
      ((scanner.scan second (classpath.facts second) roots).run .empty).1 := by
  have hjudge : ∀ candidate,
      (Verdicts.ofFacts scanner.rules scanner.contract (classpath.factsAfresh first)).Visits
        (first.findings roots) candidate →
      (Verdicts.ofFacts scanner.rules scanner.contract (classpath.factsAfresh first)).judge candidate.name =
        (Verdicts.ofFacts scanner.rules scanner.contract (classpath.factsAfresh second)).judge
          candidate.name := by
    intro candidate hvisits
    by_cases hg : scanner.rules.governs candidate.name = true
    · exact (hspares candidate hg hvisits).judge scanner.rules scanner.contract
    · rw [Verdicts.judge_of_not_governs hg, Verdicts.judge_of_not_governs hg]
  rw [scan_afresh built, scan_afresh built, outcome_congr hwalks hjudge, outcome_of_sameListings same]

/-- Nothing matters but the definitions found first of the governed types that a scan comes to and of the
types that can be reached from them. All else that class files and entries hold may be anything else, or not
be readable at all, and the scan still comes to the same, be it a result or an error. -/
theorem scan_of_spared (scanner : Scanner) (same : first.SameListings second)
    (h : ∀ indexed, Classpath.ofRoots first roots = .ok indexed →
      let classpath := (indexed.withPlatformTypes table).withLeafTypes leafTypes
      ∀ candidate, scanner.rules.governs candidate.name = true →
        (Verdicts.ofFacts scanner.rules scanner.contract (classpath.factsAfresh first)).Visits
          (first.findings roots) candidate →
        classpath.Spares first second candidate.name) :
    scanner.scanIndexed first roots table leafTypes = scanner.scanIndexed second roots table leafTypes := by
  unfold scanIndexed
  rw [← same.ofRoots]
  cases hroots : Classpath.ofRoots first roots with
  | error error => simp only [Except.map]
  | ok indexed =>
    have hwalks := (Classpath.addRoots_eq_ok_iff.1 hroots).1
    have built := ((Classpath.Built.ofRoots hroots).withPlatformTypes table).withLeafTypes leafTypes
    exact congrArg Except.ok (scan_eq_of_spares same built hwalks (h indexed hroots))

/-- Two classes that extend each other, an archive with a second definition of one of them and with a class that
extends it, and a class by itself. -/
def sparedTree : FileTree :=
  (Classpath.cyclicTree.put ["c.jar", "lib"] (.file (.archive ⟨[
    ⟨"A.class", ClassFile.plainBytes "A" "C" [], none⟩,
    ⟨"C.class", ClassFile.plainBytes "C" "A" [], none⟩]⟩))).put ["D.class", "lib"]
    (.file (.bytes (ClassFile.plainBytes "D" "java.lang.Object" [])))

/-- An archive with entries of the same names, of none of which anything can be read. -/
def spoiltArchive : Archive :=
  ⟨[⟨"A.class", [], some .badChecksum⟩, ⟨"C.class", [1, 2, 3], none⟩]⟩

/-- The same with that archive, and with the class by itself not to be read either. -/
def spoiltTree : FileTree :=
  (sparedTree.put ["c.jar", "lib"] (.file (.archive spoiltArchive))).put ["D.class", "lib"]
    (.file (.refused false .permissionDenied))

theorem sameListings_spoiltTree : sparedTree.SameListings spoiltTree := by
  have harchive : sparedTree.node? ["c.jar", "lib"] = some (.file (.archive ⟨[
      ⟨"A.class", ClassFile.plainBytes "A" "C" [], none⟩,
      ⟨"C.class", ClassFile.plainBytes "C" "A" [], none⟩]⟩)) := by
    rw [sparedTree, FileTree.node?_put_other _ (by decide)]
    exact FileTree.node?_put_self _ (List.cons_ne_nil _ _) _
  have hclass : ∀ node, (sparedTree.put ["c.jar", "lib"] node).node? ["D.class", "lib"] =
      some (.file (.bytes (ClassFile.plainBytes "D" "java.lang.Object" []))) := fun node => by
    rw [FileTree.node?_put_other _ (by decide)]
    exact FileTree.node?_put_self _ (List.cons_ne_nil _ _) _
  have same : sparedTree.SameListings (sparedTree.put ["c.jar", "lib"] (.file (.archive spoiltArchive))) :=
    .put_file harchive fun _ _ _ => rfl
  refine same.trans (.put_file (hclass _) fun path ha hr => ?_)
  -- without links no path of an archive leads to the class
  have hi : Path.isInput path = true := by rw [Path.isInput, ha, Bool.or_true]
  obtain ⟨outer, he⟩ := FileTree.exists_outer_of_resolve (FileTree.not_link_of_entries (by decide +kernel)) hr hi
  rw [Archive.isArchiveName_afterLast, ← (List.cons.inj he).1] at ha
  exact absurd ha (by decide)

/-- A scan that governs the two classes does not notice what became of the others. One that governs another class
fails. -/
theorem scan_of_spoiltTree :
    let scanner (namespaces : List String) :=
      Scanner.fresh ⟨namespaces, "java.io.Serializable", []⟩ (.version "serialVersionUID") "classes"
    spoiltTree.readBytes "lib/D.class" = .error .permissionDenied ∧
      (scanner ["A", "B"]).scanIndexed sparedTree ["lib"] [] [] =
        (scanner ["A", "B"]).scanIndexed spoiltTree ["lib"] [] [] ∧
      ((scanner ["A", "B"]).scanIndexed spoiltTree ["lib"] [] []).toOption.bind
        (fun ended => ended.1.toOption.map (·.manifest)) = some ["A", "B"] ∧
      ∀ name ∈ ["C", "D"], ((scanner [name]).scanIndexed spoiltTree ["lib"] [] []).toOption.bind
        (fun ended => ended.1.toOption.map (·.manifest)) = none := by
  intro scanner
  refine ⟨by decide +kernel, scan_of_spared (scanner ["A", "B"]) sameListings_spoiltTree ?_, by decide +kernel,
    by decide +kernel⟩
  intro indexed hroots classpath candidate hg hvisits type hr origin ho
  obtain ⟨_, rfl⟩ := Classpath.addRoots_eq_ok_iff.1 hroots
  -- from the two classes nothing of the archive can be reached
  have hname : candidate.name ∈ ["A", "B", "java.io.Serializable"] := by
    have hfound : ∀ candidate ∈ sparedTree.findings ["lib"],
        (scanner ["A", "B"]).rules.governs candidate.name = true →
          candidate.name ∈ ["A", "B", "java.io.Serializable"] := by
      decide +kernel
    exact hfound candidate hvisits.mem hg
  have htype : type ∈ ["A", "B", "java.io.Serializable"] :=
    Classpath.mem_of_reaches (by decide +kernel) hname hr
  have hread : ∀ type ∈ ["A", "B", "java.io.Serializable"], ∀ origin ∈ classpath.index.origin? type,
      (sparedTree.definitionBytes origin).toOption = (spoiltTree.definitionBytes origin).toOption ∧
        (sparedTree.definitionBytes origin).toOption.isSome = true := by
    decide +kernel
  obtain ⟨he, hsome⟩ := hread type htype origin ho
  obtain ⟨bytes, hbytes⟩ := Except.isSome_toOption_iff.1 hsome
  have hspoilt := Except.toOption_eq_some_iff.1 (he.symm.trans (Except.toOption_eq_some_iff.2 hbytes))
  exact hbytes.trans hspoilt.symm

end Scanner

end SerialManifest

import SerialManifest.Proofs.FirstDefinitions
import SerialManifest.Proofs.PairedSearches

namespace SerialManifest

theorem Gives.own {ε σ α : Type} {Good : σ → Prop} {action : ExceptT ε (StateM σ) α} {answer : Except ε α}
    (h : Gives Good action answer) {memory : σ} (good : Good memory) :
    Gives Good action (action.run.run memory).1 := by
  rw [(h memory good).1]
  exact h

namespace TypeIndex

theorem insertAll_eq_self {index : TypeIndex} {candidates : List Candidate}
    (h : ∀ candidate ∈ candidates, candidate.name ∈ index.names) : index.insertAll candidates = index := by
  induction candidates with
  | nil => rfl
  | cons candidate others ih =>
    change (index.insertNew candidate).insertAll others = index
    rw [insertNew, dif_pos (h candidate List.mem_cons_self)]
    exact ih fun other hm => h other (List.mem_cons_of_mem candidate hm)

theorem insertAll_eq_self_of_missing {index : TypeIndex} {candidates : List Candidate}
    (h : index.missing candidates = []) : index.insertAll candidates = index := by
  refine insertAll_eq_self fun candidate hm => ?_
  by_contra hn
  have hmissing := mem_missing_iff.2 ⟨⟨candidate, hm, rfl⟩, hn⟩
  rw [h] at hmissing
  exact List.not_mem_nil hmissing

theorem contains_insertAll (index : TypeIndex) (candidates : List Candidate) (name : String) :
    (index.insertAll candidates).contains name =
      (index.contains name || (index.missing candidates).contains name) := by
  rw [Bool.eq_iff_iff]
  simp only [contains, List.contains_iff_mem, Bool.or_eq_true, mem_names_insertAll, mem_missing_iff]
  tauto

end TypeIndex

namespace Session

variable {session : Session} {root : String}

/-- What the session may come to remember by being asked, as long as its files stay as they are. -/
structure Recalls (session : Session) (memory : ClassCache) : Prop where
  grows : session.cache.Grows session.files memory
  classes : ∀ name file, memory.classes.lookup name = some file →
    session.answer (.classFile name) = .ok (some file)
  archives : ∀ key archive, memory.archives.lookup key = some archive →
    session.cache.archives.lookup key = some archive ∨
      ∃ path, Path.key path = key ∧ ArchivePath path ∧ session.files.openArchive path = .ok archive

theorem recalls_cache (session : Session) : session.Recalls session.cache :=
  ⟨.refl _ _, fun _ _ h => congrArg Prod.fst (Classpath.run_classFile?_of_kept h), fun _ _ => .inl⟩

section Recalls

variable {memory : ClassCache}

theorem Recalls.withArchive {path : String} {archive : Archive} (recalls : session.Recalls memory)
    (hn : memory.archives.lookup (Path.key path) = none) (hp : ArchivePath path)
    (hopen : session.files.openArchive path = .ok archive) :
    session.Recalls { memory with archives := (Path.key path, archive) :: memory.archives } := by
  have hgrows : memory.Grows session.files _ := Classpath.grows_openArchive path memory
  rw [Classpath.run_openArchive_of_fresh hn, hopen] at hgrows
  refine ⟨recalls.grows.trans hgrows, recalls.classes, fun key stored h => ?_⟩
  simp only [List.lookup_cons] at h
  split at h
  next heq =>
    cases h
    exact .inr ⟨path, (beq_iff_eq.1 heq).symm, hp, hopen⟩
  next => exact recalls.archives key stored h

theorem Recalls.withClass {name : String} {file : ClassFile} (recalls : session.Recalls memory)
    (hn : memory.classes.lookup name = none) (h : session.answer (.classFile name) = .ok (some file)) :
    session.Recalls { memory with classes := (name, file) :: memory.classes } := by
  have hgrows : memory.Grows session.files { memory with classes := (name, file) :: memory.classes } := by
    refine ⟨fun other stored ho => ?_, fun _ _ => id, fun _ _ => .inl⟩
    have hne : other ≠ name := by
      rintro rfl
      cases hn.symm.trans ho
    rw [List.lookup_cons, beq_eq_false_iff_ne.2 hne]
    exact ho
  refine ⟨recalls.grows.trans hgrows, fun other stored ho => ?_, recalls.archives⟩
  simp only [List.lookup_cons] at ho
  split at ho
  next heq =>
    cases ho
    rw [beq_iff_eq.1 heq]
    exact h
  next => exact recalls.classes other stored ho

theorem openArchive_gives {path : String} (hp : ArchivePath path) :
    Gives session.Recalls (Classpath.openArchive session.files path)
      ((Classpath.openArchive session.files path).run.run session.cache).1 := by
  intro memory recalls
  cases hs : session.cache.archives.lookup (Path.key path) with
  | some archive =>
    rw [Classpath.run_openArchive_of_kept hs,
      Classpath.run_openArchive_of_kept (recalls.grows.archives _ _ hs)]
    exact ⟨rfl, recalls⟩
  | none =>
    rw [Classpath.run_openArchive_of_fresh hs]
    cases hl : memory.archives.lookup (Path.key path) with
    | some archive =>
      -- it has been opened since, by a spelling of the same path
      rcases recalls.archives _ _ hl with hkept | ⟨other, hk, ho, hopen⟩
      · cases hs.symm.trans hkept
      · rw [Classpath.run_openArchive_of_kept hl, hp.openArchive_eq_ok ho hk.symm hopen]
        exact ⟨rfl, recalls⟩
    | none =>
      rw [Classpath.run_openArchive_of_fresh hl]
      cases hopen : session.files.openArchive path with
      | error error => exact ⟨rfl, recalls⟩
      | ok archive => exact ⟨rfl, recalls.withArchive hl hp hopen⟩

theorem readDefinition_gives {origin : Origin}
    (hp : ∀ archive name, origin = .entry archive name → ArchivePath archive) :
    Gives session.Recalls (Classpath.readDefinition session.files origin)
      ((Classpath.readDefinition session.files origin).run.run session.cache).1 := by
  cases origin with
  | file path =>
    intro memory recalls
    rw [Classpath.run_readDefinition_file, Classpath.run_readDefinition_file]
    exact ⟨rfl, recalls⟩
  | entry path name =>
    let entry (archive : Archive) : Except QueryError (List UInt8) := (archive.read path name).mapError .archive
    have hread : Gives session.Recalls (Classpath.readDefinition session.files (.entry path name))
        (((Classpath.openArchive session.files path).run.run session.cache).1.bind entry) := by
      refine (openArchive_gives (hp path name rfl)).bind fun archive _ => ?_
      unfold entry
      cases archive.read path name with
      | error error => exact .throw _
      | ok data => exact .pure data
    exact hread.own session.recalls_cache

theorem classFile?_gives (built : session.classpath.Built) (name : String) :
    Gives session.Recalls (session.classpath.classFile? session.files name)
      (session.answer (.classFile name)) := by
  intro memory recalls
  cases hl : memory.classes.lookup name with
  | some file =>
    rw [Classpath.run_classFile?_of_kept hl, recalls.classes name file hl]
    exact ⟨rfl, recalls⟩
  | none =>
    have hs : session.cache.classes.lookup name = none := by
      cases hs : session.cache.classes.lookup name with
      | none => rfl
      | some file => cases hl.symm.trans (recalls.grows.classes name file hs)
    cases ho : session.classpath.index.origin? name with
    | none =>
      have hanswer : session.answer (.classFile name) = .ok none :=
        congrArg Prod.fst (Classpath.run_classFile?_of_unindexed hs ho)
      rw [Classpath.run_classFile?_of_unindexed hl ho, hanswer]
      exact ⟨rfl, recalls⟩
    | some origin =>
      have hp : ∀ archive entry, origin = .entry archive entry → ArchivePath archive :=
        fun archive entry he => built.archivePath (he ▸ ho)
      obtain ⟨hread, hlater⟩ := readDefinition_gives hp memory recalls
      have hfresh : ((Classpath.readDefinition session.files origin).run.run memory).2.classes.lookup name =
          none := by
        rw [Classpath.classes_readDefinition]
        exact hl
      have hanswer := (tells_of_fresh ho hs).classFile
      rw [← hread] at hanswer
      rw [Classpath.run_classFile?_of_fresh hl ho, hanswer]
      generalize (Classpath.readDefinition session.files origin).run.run memory = after at hlater hfresh hanswer
      obtain ⟨result, later⟩ := after
      cases result with
      | error error => exact ⟨rfl, hlater⟩
      | ok bytes =>
        dsimp only [parsed, Except.bind] at hanswer ⊢
        cases hparse : ClassFile.parse bytes with
        | error error => exact ⟨rfl, hlater⟩
        | ok file =>
          rw [hparse] at hanswer
          exact ⟨rfl, hlater.withClass hfresh hanswer⟩

def required (session : Session) (name : String) : Except QueryError ClassFile :=
  (session.answer (.classFile name)).bind fun
    | some file => .ok file
    | none => .error (.typeNotFound name)

theorem required_gives (built : session.classpath.Built) (name : String) :
    Gives session.Recalls (session.classpath.require session.files name) (session.required name) := by
  refine (classFile?_gives built name).bind fun found _ => ?_
  cases found with
  | some file => exact .pure file
  | none => exact .throw _

/-- What lies above each type, as searches in this session find it. -/
def hierarchy (session : Session) : Hierarchy Unit where
  defined := (session.classpath.hierarchy session.files).defined
  supertypes name := told (session.supertypes name)
  isLeaf := (session.classpath.hierarchy session.files).isLeaf

theorem hierarchy_follows (built : session.classpath.Built) :
    (session.classpath.hierarchy session.files).Follows session.Recalls session.hierarchy where
  defined := rfl
  isLeaf := rfl
  supertypes name := by
    rw [Hierarchy.above, hierarchy, outcomeOf_told, supertypes_eq]
    refine (classFile?_gives built name).bind fun found _ => ?_
    cases found <;> exact .pure _

def searched (session : Session) (name capability : String) : Except QueryError Bool :=
  (outcomeOf (session.hierarchy.search name capability)).bind fun verdict => outcomeOf (verdict.answer name)

theorem implements_gives (built : session.classpath.Built) (name capability : String) :
    Gives session.Recalls ((session.classpath.facts session.files).implements name capability)
      ((session.required name).bind fun _ => session.searched name capability) := by
  refine (required_gives built name).bind fun _ _ => ?_
  refine ((hierarchy_follows built).search name capability).bind fun verdict _ => ?_
  cases verdict with
  | reached => exact .pure true
  | unreached => exact .pure false
  | unresolved other => exact .throw _

end Recalls

/-- The types that are new to the index when this root is added. -/
def introduced (session : Session) (root : String) : List String :=
  session.classpath.index.missing (session.found (.addRoot root))

/-- What can be reached from a type, as searches in this session find it. -/
def Reaches (session : Session) : String → String → Prop :=
  Relation.ReflTransGen fun lower upper =>
    ∃ supertypes, session.supertypes lower = .ok supertypes ∧ upper ∈ supertypes

/-- The types that a question may lead to. -/
def Consults (session : Session) : Question → String → Prop
  | .implements name _, type => session.Reaches name type
  | .implementsAny name _, type => session.Reaches name type
  | .classFile name, type | .kind name, type | .isAbstract name, type | .simpleName name, type
  | .field name _, type => type = name

section Introduced

variable {name : String}

theorem mem_names_addRoot (hn : name ∉ session.introduced root) :
    name ∈ (session.after (.addRoot root)).classpath.index.names ↔ name ∈ session.classpath.index.names := by
  rw [index_after, TypeIndex.mem_names_insertAll]
  refine or_iff_left_of_imp fun hfound => ?_
  by_contra hm
  exact hn (TypeIndex.mem_missing_iff.2 ⟨hfound, hm⟩)

theorem origin?_addRoot_of_known (hn : name ∉ session.introduced root) :
    (session.after (.addRoot root)).origin? name = session.origin? name := by
  cases ho : session.origin? name with
  | some origin => exact origin?_addRoot ho
  | none =>
    refine TypeIndex.origin?_eq_none_iff.2 fun hm => ?_
    exact TypeIndex.origin?_eq_none_iff.1 ho ((mem_names_addRoot hn).1 hm)

theorem classFile?_addRoot (hn : name ∉ session.introduced root) :
    (session.after (.addRoot root)).classpath.classFile? session.files name =
      session.classpath.classFile? session.files name := by
  have ho : (session.after (.addRoot root)).classpath.index.origin? name =
      session.classpath.index.origin? name := origin?_addRoot_of_known hn
  unfold Classpath.classFile?
  rw [ho]

theorem answer_classFile_addRoot (hn : name ∉ session.introduced root) :
    (session.after (.addRoot root)).answer (.classFile name) = session.answer (.classFile name) := by
  have haction := classFile?_addRoot hn
  exact congrArg (fun action => (action.run.run session.cache).1) haction

theorem require_addRoot (hn : name ∉ session.introduced root) :
    (session.after (.addRoot root)).classpath.require session.files name =
      session.classpath.require session.files name := by
  unfold Classpath.require
  rw [classFile?_addRoot hn]

theorem supertypes_addRoot (hn : name ∉ session.introduced root) :
    (session.after (.addRoot root)).supertypes name = session.supertypes name := by
  rw [supertypes_eq, supertypes_eq, answer_classFile_addRoot hn]
  rfl

variable (hn : ∀ type ∈ session.introduced root, ¬ session.Reaches name type)
include hn

theorem hierarchy_pairs :
    session.hierarchy.Pairs (fun _ => False) Eq (session.after (.addRoot root)).hierarchy name := by
  have hknown : ∀ {type}, session.hierarchy.Reaches name type → type ∉ session.introduced root := by
    intro type hr hm
    exact hn type hm (Relation.ReflTransGen.mono (fun _ _ step => step.2) _ _ hr)
  refine ⟨fun type hr => ?_, fun type hr => ?_, fun type _ _ before after h => ?_⟩
  · have hmem := mem_names_addRoot (hknown hr)
    simp only [hierarchy, Classpath.hierarchy, List.mem_append, hmem]
    rfl
  · have habove : session.hierarchy.above type = (session.after (.addRoot root)).hierarchy.above type :=
      (supertypes_addRoot (hknown hr)).symm
    rw [habove]
    exact .same _
  · rw [h]
    rfl

theorem searched_addRoot (capability : String) :
    (session.after (.addRoot root)).searched name capability = session.searched name capability := by
  have hsearch := ((hierarchy_pairs hn).search rfl capability).sameUnless.eq_of_not_excused fun _ _ => id
  rw [searched, searched, hsearch]

theorem implements_addRoot (built : session.classpath.Built) (capability : String) :
    let later := session.after (.addRoot root)
    Gives later.Recalls ((later.classpath.facts session.files).implements name capability)
      ((session.required name).bind fun _ => session.searched name capability) := by
  intro later
  have hname : name ∉ session.introduced root := fun hm => hn name hm .refl
  have hrequired : later.required name = session.required name := by
    rw [required, required, answer_classFile_addRoot hname]
  have built' : later.classpath.Built := built.addRoot session.files root
  have hgives := implements_gives built' name capability
  rw [hrequired, searched_addRoot hn] at hgives
  exact hgives

theorem implementsAny_addRoot (built : session.classpath.Built) (capabilities : List String) :
    let later := session.after (.addRoot root)
    ∃ answer,
      Gives session.Recalls ((session.classpath.facts session.files).implementsAny name capabilities) answer ∧
      Gives later.Recalls ((later.classpath.facts session.files).implementsAny name capabilities) answer := by
  intro later
  induction capabilities with
  | nil => exact ⟨_, .pure false, .pure false⟩
  | cons capability others ih =>
    obtain ⟨rest, hothers, hothers'⟩ := ih
    refine ⟨((session.required name).bind fun _ => session.searched name capability).bind fun has =>
      if has then .ok true else rest, ?_, ?_⟩
    · refine (implements_gives built name capability).bind fun has _ => ?_
      cases has
      · exact hothers
      · exact .pure true
    · refine (implements_addRoot hn built capability).bind fun has _ => ?_
      cases has
      · exact hothers'
      · exact .pure true

end Introduced

theorem answer_addRoot (built : session.classpath.Built) (question : Question)
    (hn : ∀ type ∈ session.introduced root, ¬ session.Consults question type) :
    (session.after (.addRoot root)).answer question = session.answer question := by
  have htold : ∀ {α : Type} {name : String} (tell : ClassFile → α), name ∉ session.introduced root →
      ((do return tell (← (session.after (.addRoot root)).classpath.require session.files name) :
        Query ClassCache α).run.run session.cache).1 =
      ((do return tell (← session.classpath.require session.files name) :
        Query ClassCache α).run.run session.cache).1 := by
    intro α name tell hname
    rw [require_addRoot hname]
  have hrecalls := session.recalls_cache
  have hrecalls' := (session.after (.addRoot root)).recalls_cache
  cases question with
  | classFile name => exact answer_classFile_addRoot fun hm => hn name hm rfl
  | kind name => exact htold Classpath.kindOf fun hm => hn name hm rfl
  | isAbstract name => exact htold (·.access.isAbstract) fun hm => hn name hm rfl
  | simpleName name => exact htold (·.simpleName) fun hm => hn name hm rfl
  | field name field => exact htold (·.field? field) fun hm => hn name hm rfl
  | implements name capability =>
    have hafter := (implements_addRoot hn built capability _ hrecalls').1
    exact hafter.trans (implements_gives built name capability _ hrecalls).1.symm
  | implementsAny name capabilities =>
    obtain ⟨answer, hbefore, hafter⟩ := implementsAny_addRoot hn built capabilities
    exact (hafter _ hrecalls').1.trans (hbefore _ hrecalls).1.symm

/-- Whether or not the walk fails, what it has come upon stays indexed: an indexed name keeps its definition, and
a new one gets the first that was found. So there are as many more indexed types as there are new names, and the
session is what it was before only if there is none. Nothing but the index changes, and questions that lead to
no new type are answered as before, be it with an answer or with an error. -/
theorem kept_of_interruptedWalk (built : session.classpath.Built) (root : String) :
    let later := session.after (.addRoot root)
    let index := later.classpath.index
    later = { session with classpath := { session.classpath with index } } ∧
    (∀ name, later.origin? name =
      (session.origin? name <|> Candidate.firstNamed? (session.files.walk root).found name)) ∧
    (∀ name, index.contains name =
      (session.classpath.index.contains name || (session.introduced root).contains name)) ∧
    index.size = session.classpath.index.size + (session.introduced root).length ∧
    (later = session ↔ session.introduced root = []) ∧
    ∀ question, (∀ type ∈ session.introduced root, ¬ session.Consults question type) →
      later.answer question = session.answer question := by
  intro later index
  have hindex : index = session.classpath.index.insertAll (session.found (.addRoot root)) := rfl
  have hsize : index.size = session.classpath.index.size + (session.introduced root).length := by
    rw [hindex, TypeIndex.size_insertAll]
    rfl
  refine ⟨rfl, TypeIndex.origin?_insertAll _ _, TypeIndex.contains_insertAll _ _, hsize, ?_, answer_addRoot built⟩
  constructor
  · intro hsame
    have hlater : index.size = session.classpath.index.size := congrArg (·.classpath.index.size) hsame
    exact List.length_eq_zero_iff.1 (by omega)
  · intro hnone
    change { session with classpath := { session.classpath with index } } = session
    rw [hindex, TypeIndex.insertAll_eq_self_of_missing hnone]

/-- A directory with a class, and another one with a second class and a file that is no archive. -/
def interruptedTree : FileTree :=
  (((FileTree.ofFiles "first" [("A.class", ClassFile.plainBytes "A" "java.lang.Object" ["java.io.Serializable"])]).put
    ["second"] .directory).put ["B.class", "second"] (.file (.bytes (ClassFile.plainBytes "B" "A" [])))).put
    ["c.jar", "second"] (.file (.bytes []))

/-- The second class stays indexed though the walk has failed. A search from the first one does not lead to it. -/
theorem kept_of_interruptedTree :
    let session := (fresh interruptedTree).after (.addRoot "first")
    let later := session.after (.addRoot "second")
    (interruptedTree.walk "second").failure.isSome = true ∧
      session.introduced "second" = ["B"] ∧ later.classpath.index.size = session.classpath.index.size + 1 ∧
      later ≠ session ∧
      session.answer (.implements "A" "java.io.Externalizable") = .ok false ∧
      later.answer (.implements "A" "java.io.Externalizable") = .ok false := by
  intro session later
  have built : session.classpath.Built := Classpath.Built.empty.addRoot interruptedTree "first"
  obtain ⟨_, _, _, hsize, hsame, hanswers⟩ := kept_of_interruptedWalk built "second"
  have hintroduced : session.introduced "second" = ["B"] := by decide +kernel
  have hanswer : session.answer (.implements "A" "java.io.Externalizable") = .ok false := by decide +kernel
  let above := ["A", "java.lang.Object", "java.io.Serializable"]
  have hclosed : ∀ lower ∈ above, ((session.supertypes lower).toOption.getD []).all (above.contains ·) = true := by
    decide +kernel
  have hreached : ∀ type, session.Reaches "A" type → type ∈ above := by
    intro type hr
    induction hr with
    | refl => exact List.mem_cons_self
    | @tail lower upper _ step ih =>
      obtain ⟨supertypes, habove, hm⟩ := step
      have hall := hclosed lower ih
      rw [habove] at hall
      exact List.contains_iff_mem.1 (List.all_eq_true.1 hall upper hm)
  refine ⟨by decide +kernel, hintroduced, ?_, ?_, hanswer, ?_⟩
  · rw [hsize, hintroduced]
    rfl
  · intro hl
    have hnone := hsame.1 hl
    rw [hintroduced] at hnone
    cases hnone
  · rw [hanswers (.implements "A" "java.io.Externalizable"), hanswer]
    intro type hm hr
    rw [hintroduced] at hm
    rw [List.mem_singleton.1 hm] at hr
    exact absurd (hreached "B" hr) (by decide)

/-- An attempt to index a root fails, and yet there is one more type, of which there was no answer before. -/
theorem interruptedWalk_changes_answers :
    let session := (fresh interruptedTree).after (.addRoot "first")
    let later := session.after (.addRoot "second")
    (session.classpath.addRoot interruptedTree "second").2.isSome = true ∧
      (session.classpath.index.size, later.classpath.index.size) = (1, 2) ∧
      (session.classpath.index.contains "B", later.classpath.index.contains "B") = (false, true) ∧
      session.answer (.kind "B") = .error (.typeNotFound "B") ∧
      later.answer (.kind "B") = .ok .ordinaryClass := by
  decide +kernel

end Session

end SerialManifest

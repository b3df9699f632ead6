import SerialManifest.Proofs.CapabilityReachability
import SerialManifest.Proofs.ClasspathIndex

namespace SerialManifest

def FileTree.definitionBytes (tree : FileTree) : Origin → Except QueryError (List UInt8)
  | .file path => (tree.readBytes path).mapError (.unreadable path)
  | .entry path name =>
    ((tree.openArchive path).mapError .archive).bind fun archive =>
      (archive.read path name).mapError .archive

def Classpath.definition (classpath : Classpath) (tree : FileTree) (name : String) :
    Except QueryError (Option ClassFile) :=
  match classpath.index.origin? name with
  | none => .ok none
  | some origin =>
    (tree.definitionBytes origin).bind fun bytes =>
      ((ClassFile.parse bytes).mapError (.malformed name)).map some

def FileTree.classFileAt? (tree : FileTree) (origin : Origin) : Option ClassFile :=
  (tree.definitionBytes origin).toOption.bind fun bytes => (ClassFile.parse bytes).toOption

namespace Classpath

theorem definition_eq_some_iff {classpath : Classpath} {tree : FileTree} {name : String}
    {file : ClassFile} :
    classpath.definition tree name = .ok (some file) ↔
      ∃ origin, classpath.index.origin? name = some origin ∧ tree.classFileAt? origin = some file := by
  unfold definition FileTree.classFileAt?
  cases classpath.index.origin? name with
  | none => simp
  | some origin =>
    simp only [Except.bind_eq_ok_iff, Except.map_eq_ok_iff, Except.mapError_eq_ok_iff, Option.some.injEq,
      exists_eq_right, exists_eq_left', Option.bind_eq_some_iff, Except.toOption_eq_some_iff]

def requiredAfresh (classpath : Classpath) (tree : FileTree) (name : String) : Query Unit ClassFile := do
  match ← told (classpath.definition tree name) with
  | some file => return file
  | none => throw (.typeNotFound name)

/-- What lies above each type, every class file being read afresh. -/
def hierarchyAfresh (classpath : Classpath) (tree : FileTree) : Hierarchy Unit where
  defined := (classpath.hierarchy tree).defined
  supertypes name := do
    match ← told (classpath.definition tree name) with
    | some file => return file.supertypes
    | none => return (classpath.platformTypes.lookup name).getD []
  isLeaf := (classpath.hierarchy tree).isLeaf

def factsAfresh (classpath : Classpath) (tree : FileTree) : TypeFacts Unit where
  kind name := return kindOf (← classpath.requiredAfresh tree name)
  isAbstract name := return (← classpath.requiredAfresh tree name).access.isAbstract
  simpleName name := return (← classpath.requiredAfresh tree name).simpleName
  implements name capability := do
    let _ ← classpath.requiredAfresh tree name
    (← (classpath.hierarchyAfresh tree).search name capability).answer name
  field? name field := return (← classpath.requiredAfresh tree name).field? field

end Classpath

/-- What is remembered agrees with the files. -/
structure ClassCache.Faithful (classpath : Classpath) (tree : FileTree) (cache : ClassCache) : Prop where
  classes : ∀ name file, cache.classes.lookup name = some file →
    classpath.definition tree name = .ok (some file)
  archives : ∀ key archive, cache.archives.lookup key = some archive →
    ∃ path, Path.key path = key ∧ ArchivePath path ∧ tree.openArchive path = .ok archive

theorem ClassCache.faithful_empty (classpath : Classpath) (tree : FileTree) :
    ClassCache.empty.Faithful classpath tree where
  classes _ _ h := by cases h
  archives _ _ h := by cases h

namespace Classpath

variable {classpath : Classpath} {tree : FileTree}

theorem openArchive_gives {path : String} (hp : ArchivePath path) :
    Gives (ClassCache.Faithful classpath tree) (openArchive tree path)
      ((tree.openArchive path).mapError .archive) := by
  refine .get_bind fun cache good => ?_
  cases hl : cache.archives.lookup (Path.key path) with
  | some archive =>
    obtain ⟨other, hk, ho, hopen⟩ := good.archives _ _ hl
    rw [hp.openArchive_eq_ok ho hk.symm hopen]
    exact .pure archive
  | none =>
    cases hopen : tree.openArchive path with
    | error error => exact .throw _
    | ok archive =>
      refine .modify_then (fun later good => ?_) (.pure archive)
      refine ⟨good.classes, fun key stored h => ?_⟩
      simp only [List.lookup_cons] at h
      split at h
      next heq =>
        cases h
        exact ⟨path, (beq_iff_eq.1 heq).symm, hp, hopen⟩
      next => exact good.archives key stored h

theorem readDefinition_gives {origin : Origin}
    (hp : ∀ archive name, origin = .entry archive name → ArchivePath archive) :
    Gives (ClassCache.Faithful classpath tree) (readDefinition tree origin)
      (tree.definitionBytes origin) := by
  cases origin with
  | file path =>
    simp only [readDefinition, FileTree.definitionBytes]
    cases tree.readBytes path with
    | error fault => exact .throw _
    | ok data => exact .pure data
  | entry path name =>
    refine (openArchive_gives (hp path name rfl)).bind fun archive _ => ?_
    cases archive.read path name with
    | error error => exact .throw _
    | ok data => exact .pure data

theorem classFile?_gives (built : classpath.Built) (name : String) :
    Gives (ClassCache.Faithful classpath tree) (classpath.classFile? tree name)
      (classpath.definition tree name) := by
  refine .get_bind fun cache good => ?_
  cases hl : cache.classes.lookup name with
  | some file =>
    rw [good.classes name file hl]
    exact .pure _
  | none =>
    unfold definition
    cases ho : classpath.index.origin? name with
    | none => exact .pure _
    | some origin =>
      refine (readDefinition_gives fun archive entry he => built.archivePath (he ▸ ho)).bind
        fun bytes hb => ?_
      cases hparse : ClassFile.parse bytes with
      | error error => exact .throw _
      | ok file =>
        refine .modify_then (fun later good => ?_) (.pure _)
        refine ⟨fun other stored h => ?_, good.archives⟩
        simp only [List.lookup_cons] at h
        split at h
        next heq =>
          cases h
          simp only [beq_iff_eq.1 heq, definition, ho, hb, Except.bind, hparse]
          rfl
        next => exact good.classes other stored h

theorem require_gives (built : classpath.Built) (name : String) :
    Gives (ClassCache.Faithful classpath tree) (classpath.require tree name)
      (outcomeOf (classpath.requiredAfresh tree name)) := by
  rw [requiredAfresh, outcomeOf_bind, outcomeOf_told]
  refine (classFile?_gives built name).bind fun found _ => ?_
  cases found with
  | none => exact .throw _
  | some file => exact .pure file

theorem hierarchy_follows (built : classpath.Built) :
    (classpath.hierarchy tree).Follows (ClassCache.Faithful classpath tree)
      (classpath.hierarchyAfresh tree) where
  defined := rfl
  isLeaf := rfl
  supertypes name := by
    rw [Hierarchy.above, hierarchyAfresh, outcomeOf_bind, outcomeOf_told]
    refine (classFile?_gives built name).bind fun found _ => ?_
    cases found <;> exact .pure _

theorem told_gives (built : classpath.Built) {α : Type} (tell : ClassFile → α) (name : String) :
    Gives (ClassCache.Faithful classpath tree) (do return tell (← classpath.require tree name))
      (outcomeOf do return tell (← classpath.requiredAfresh tree name)) := by
  rw [outcomeOf_bind]
  exact (require_gives built name).bind fun _ _ => .pure _

/-- Nobody can tell from the answers what is remembered. -/
theorem facts_follows (built : classpath.Built) :
    (classpath.facts tree).Follows (ClassCache.Faithful classpath tree)
      (classpath.factsAfresh tree) where
  kind := told_gives built kindOf
  isAbstract := told_gives built (·.access.isAbstract)
  simpleName := told_gives built (·.simpleName)
  field? name field := told_gives built (·.field? field) name
  implements name capability := by
    rw [factsAfresh, outcomeOf_bind]
    refine (require_gives built name).bind fun _ _ => ?_
    rw [outcomeOf_bind]
    refine ((hierarchy_follows built).search name capability).bind fun verdict _ => ?_
    cases verdict with
    | reached => exact .pure true
    | unreached => exact .pure false
    | unresolved other => exact .throw _

theorem requiredAfresh_eq_ok_iff {name : String} {file : ClassFile} :
    outcomeOf (classpath.requiredAfresh tree name) = .ok file ↔
      classpath.definition tree name = .ok (some file) := by
  rw [requiredAfresh, outcomeOf_bind, outcomeOf_told, Except.bind_eq_ok_iff]
  constructor
  · rintro ⟨found, hd, h⟩
    cases found with
    | none => cases h
    | some other => exact Except.ok.inj h ▸ hd
  · exact fun hd => ⟨some file, hd, rfl⟩

theorem told_eq_ok_iff {α : Type} {tell : ClassFile → α} {name : String} {value : α} :
    outcomeOf (do return tell (← classpath.requiredAfresh tree name)) = .ok value ↔
      ∃ file, classpath.definition tree name = .ok (some file) ∧ tell file = value := by
  rw [outcomeOf_bind, Except.bind_eq_ok_iff]
  simp only [requiredAfresh_eq_ok_iff, outcomeOf_pure, Except.ok.injEq]

/-- A definition that stands is not replaced by one that is found later. -/
theorem definition_addRoot {name root : String} {file : ClassFile}
    (h : classpath.definition tree name = .ok (some file)) :
    (classpath.addRoot tree root).1.definition tree name = .ok (some file) := by
  have ho : (classpath.addRoot tree root).1.index.origin? name =
      (classpath.index.origin? name <|> Candidate.firstNamed? (tree.walk root).found name) :=
    TypeIndex.origin?_insertAll _ _ _
  unfold definition at h ⊢
  rw [ho]
  cases hi : classpath.index.origin? name with
  | none => simp [hi] at h
  | some origin => simpa [hi] using h

theorem faithful_addRoot {cache : ClassCache} (faithful : cache.Faithful classpath tree) (root : String) :
    cache.Faithful (classpath.addRoot tree root).1 tree where
  classes name file h := definition_addRoot (faithful.classes name file h)
  archives := faithful.archives

/-- A classpath in use on files that stay as they are, and what it remembers. Roots may be added, and types
be declared, between the questions. -/
inductive InUse (tree : FileTree) : Classpath → ClassCache → Prop where
  | fresh : InUse tree .empty .empty
  | addRoot {classpath : Classpath} {cache : ClassCache} (h : InUse tree classpath cache) (root : String) :
    InUse tree (classpath.addRoot tree root).1 cache
  | withPlatformTypes {classpath : Classpath} {cache : ClassCache} (h : InUse tree classpath cache)
    (table : List (String × List String)) : InUse tree (classpath.withPlatformTypes table) cache
  | withLeafTypes {classpath : Classpath} {cache : ClassCache} (h : InUse tree classpath cache)
    (types : List String) : InUse tree (classpath.withLeafTypes types) cache
  | kind {classpath : Classpath} {cache : ClassCache} (h : InUse tree classpath cache) (name : String) :
    InUse tree classpath (((classpath.facts tree).kind name).run.run cache).2
  | isAbstract {classpath : Classpath} {cache : ClassCache} (h : InUse tree classpath cache)
    (name : String) : InUse tree classpath (((classpath.facts tree).isAbstract name).run.run cache).2
  | simpleName {classpath : Classpath} {cache : ClassCache} (h : InUse tree classpath cache)
    (name : String) : InUse tree classpath (((classpath.facts tree).simpleName name).run.run cache).2
  | implements {classpath : Classpath} {cache : ClassCache} (h : InUse tree classpath cache)
    (name capability : String) :
    InUse tree classpath (((classpath.facts tree).implements name capability).run.run cache).2
  | field? {classpath : Classpath} {cache : ClassCache} (h : InUse tree classpath cache)
    (name field : String) :
    InUse tree classpath (((classpath.facts tree).field? name field).run.run cache).2

theorem InUse.built {cache : ClassCache} (inUse : classpath.InUse tree cache) : classpath.Built := by
  induction inUse with
  | fresh => exact .empty
  | addRoot _ root ih => exact ih.addRoot tree root
  | withPlatformTypes _ table ih => exact ih.withPlatformTypes table
  | withLeafTypes _ types ih => exact ih.withLeafTypes types
  | _ => assumption

theorem InUse.faithful {cache : ClassCache} (inUse : classpath.InUse tree cache) :
    cache.Faithful classpath tree := by
  induction inUse with
  | fresh => exact ClassCache.faithful_empty .empty tree
  | addRoot _ root ih => exact faithful_addRoot ih root
  | withPlatformTypes _ _ ih => exact ⟨ih.classes, ih.archives⟩
  | withLeafTypes _ _ ih => exact ⟨ih.classes, ih.archives⟩
  | kind h name ih => exact ((facts_follows h.built).kind name _ ih).2
  | isAbstract h name ih => exact ((facts_follows h.built).isAbstract name _ ih).2
  | simpleName h name ih => exact ((facts_follows h.built).simpleName name _ ih).2
  | implements h name capability ih => exact ((facts_follows h.built).implements name capability _ ih).2
  | field? h name field ih => exact ((facts_follows h.built).field? name field _ ih).2

end Classpath

end SerialManifest

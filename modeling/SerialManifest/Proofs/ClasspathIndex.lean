import SerialManifest.Proofs.WalkEquations
import SerialManifest.TypeFacts.Classpath

namespace SerialManifest

/-- The definitions below the roots, in the order in which they are found. -/
def FileTree.findings (tree : FileTree) (roots : List String) : List Candidate :=
  roots.flatMap fun root => (tree.walk root).found

def Candidate.firstNamed? (candidates : List Candidate) (name : String) : Option Origin :=
  (candidates.find? (·.name == name)).map (·.origin)

theorem Candidate.exists_firstNamed?_iff {candidates : List Candidate} {name : String} :
    (∃ origin, firstNamed? candidates name = some origin) ↔
      ∃ candidate ∈ candidates, candidate.name = name := by
  simp only [firstNamed?, ← Option.isSome_iff_exists, Option.isSome_map, List.find?_isSome, beq_iff_eq]

namespace TypeIndex

theorem origin?_insertAll (index : TypeIndex) (candidates : List Candidate) (name : String) :
    (index.insertAll candidates).origin? name =
      (index.origin? name <|> Candidate.firstNamed? candidates name) := by
  unfold insertAll
  induction candidates generalizing index with
  | nil => simp [Candidate.firstNamed?]
  | cons candidate rest ih =>
    rw [List.foldl_cons, ih, origin?_insertNew]
    by_cases hn : name = candidate.name
    · subst hn
      cases index.origin? candidate.name <;> simp [Candidate.firstNamed?]
    · have hb : (candidate.name == name) = false := by simp [Ne.symm hn]
      simp [Candidate.firstNamed?, hn, hb]

theorem mem_names_iff {index : TypeIndex} {name : String} :
    name ∈ index.names ↔ ∃ origin, index.origin? name = some origin := by
  constructor
  · intro hm
    cases ho : index.origin? name with
    | none => exact absurd hm (origin?_eq_none_iff.1 ho)
    | some origin => exact ⟨origin, rfl⟩
  · rintro ⟨origin, ho⟩
    refine Decidable.byContradiction fun hn => ?_
    rw [origin?_eq_none_iff.2 hn] at ho
    cases ho

theorem mem_names_insertAll {index : TypeIndex} {candidates : List Candidate} {name : String} :
    name ∈ (index.insertAll candidates).names ↔
      name ∈ index.names ∨ ∃ candidate ∈ candidates, candidate.name = name := by
  rw [mem_names_iff, mem_names_iff, origin?_insertAll, ← Candidate.exists_firstNamed?_iff]
  cases index.origin? name with
  | none => simp
  | some origin => simp

end TypeIndex

namespace Classpath

theorem addRoots_eq_ok_iff {classpath extended : Classpath} {tree : FileTree} {roots : List String} :
    classpath.addRoots tree roots = .ok extended ↔
      (∀ root ∈ roots, (tree.walk root).failure = none) ∧
      extended = { classpath with index := classpath.index.insertAll (tree.findings roots) } := by
  induction roots generalizing classpath with
  | nil => simp [addRoots, FileTree.findings, TypeIndex.insertAll, eq_comm]
  | cons root roots ih =>
    cases hf : (tree.walk root).failure with
    | some error => simp [addRoots, addRoot, hf]
    | none =>
      simp [addRoots, addRoot, hf, ih, FileTree.findings, TypeIndex.insertAll]

theorem exists_failure_of_addRoots {classpath : Classpath} {tree : FileTree} {roots : List String}
    {error : WalkError} (h : classpath.addRoots tree roots = .error error) :
    ∃ root ∈ roots, (tree.walk root).failure = some error := by
  induction roots generalizing classpath with
  | nil => cases h
  | cons root roots ih =>
    cases hf : (tree.walk root).failure with
    | some first =>
      have he : first = error := by simpa [addRoots, addRoot, hf] using h
      exact ⟨root, List.mem_cons_self, he ▸ hf⟩
    | none =>
      simp only [addRoots, addRoot, hf] at h
      obtain ⟨other, ho, hfails⟩ := ih h
      exact ⟨other, List.mem_cons_of_mem root ho, hfails⟩

/-- What can be built: roots may have been indexed in any order and on any files, and some of them in
part. -/
inductive Built : Classpath → Prop where
  | empty : Built .empty
  | addRoot {classpath : Classpath} (h : Built classpath) (tree : FileTree) (root : String) :
    Built (classpath.addRoot tree root).1
  | withPlatformTypes {classpath : Classpath} (h : Built classpath) (table : List (String × List String)) :
    Built (classpath.withPlatformTypes table)
  | withLeafTypes {classpath : Classpath} (h : Built classpath) (types : List String) :
    Built (classpath.withLeafTypes types)

theorem Built.addRoots {classpath extended : Classpath} {tree : FileTree} {roots : List String}
    (built : classpath.Built) (h : classpath.addRoots tree roots = .ok extended) : extended.Built := by
  induction roots generalizing classpath with
  | nil => exact Except.ok.inj h ▸ built
  | cons root roots ih =>
    rw [Classpath.addRoots] at h
    split at h
    next => cases h
    next next' _ hr => exact ih (by simpa [hr] using built.addRoot tree root) h

theorem Built.ofRoots {extended : Classpath} {tree : FileTree} {roots : List String}
    (h : Classpath.ofRoots tree roots = .ok extended) : extended.Built :=
  Built.empty.addRoots h

/-- The index asks for entries only where the file system takes the path for that of an archive. -/
theorem Built.archivePath {classpath : Classpath} {name archive entry : String} (built : classpath.Built)
    (h : classpath.index.origin? name = some (.entry archive entry)) : ArchivePath archive := by
  induction built with
  | empty => cases h
  | @addRoot classpath _ tree root ih =>
    rw [Classpath.addRoot, TypeIndex.origin?_insertAll] at h
    cases ho : classpath.index.origin? name with
    | some origin =>
      rw [ho] at h
      exact ih (ho.trans h)
    | none =>
      rw [ho] at h
      obtain ⟨candidate, hf, he⟩ := Option.map_eq_some_iff.1 h
      exact FileTree.archivePath_of_mem_walk (List.mem_of_find?_eq_some hf) he
  | withPlatformTypes _ _ ih => exact ih h
  | withLeafTypes _ _ ih => exact ih h

end Classpath

end SerialManifest

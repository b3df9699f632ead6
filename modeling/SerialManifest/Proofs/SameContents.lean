import SerialManifest.Proofs.SameShape

namespace SerialManifest

namespace FileTree

/-- The same stands at every place of both trees. -/
structure SameContents (first second : FileTree) : Prop where
  current : first.current = second.current
  nodes : ∀ place, first.node? place = second.node? place

theorem SameContents.shape {first second : FileTree} (same : first.SameContents second) :
    first.SameShape second :=
  ⟨same.current, fun place => .inl (same.nodes place)⟩

/-- On one disk, trees that hold the same are alike to writers. -/
theorem SameContents.forWriting {first second : FileTree} (same : first.SameContents second)
    (hdisk : first.disk = second.disk) : first.SameForWriting second :=
  ⟨same.shape, hdisk, fun place => refusal?_of_nodes hdisk (same.nodes place)⟩

theorem SameContents.of_perm {first second : FileTree} (hc : first.current = second.current)
    (hp : first.entries.Perm second.entries) : first.SameContents second := by
  refine ⟨hc, fun place => ?_⟩
  by_cases hroot : place = []
  · subst hroot
    rfl
  · refine Option.ext fun node => ?_
    rw [node?_eq_some_iff hroot, node?_eq_some_iff hroot]
    simp only [hp.mem_iff]

section Reading

variable {first second : FileTree} (same : first.SameContents second)
include same

theorem SameContents.contentAt (place : Location) : first.contentAt place = second.contentAt place := by
  rw [FileTree.contentAt, FileTree.contentAt, same.nodes]

theorem SameContents.readBytes (path : String) : first.readBytes path = second.readBytes path := by
  simp only [FileTree.readBytes, same.shape.resolve, same.contentAt]

theorem SameContents.openArchive (path : String) : first.openArchive path = second.openArchive path := by
  simp only [FileTree.openArchive, same.shape.resolve, same.contentAt]

end Reading

theorem mem_children_iff {tree : FileTree} {place : Location} {name : String} :
    name ∈ tree.children place ↔ (tree.node? (name :: place)).isSome = true := by
  simp only [children, List.mem_filterMap, Entry.childName?_eq_some_iff, Option.isSome_iff_exists,
    node?_eq_some_iff (List.cons_ne_nil name place)]
  constructor
  · rintro ⟨entry, hm, he⟩
    exact ⟨entry.node, entry, hm, he, rfl⟩
  · rintro ⟨_, entry, hm, he, _⟩
    exact ⟨entry, hm, he⟩

theorem nodup_children (tree : FileTree) (place : Location) : (tree.children place).Nodup := by
  refine (List.pairwise_map.1 tree.distinct).filterMap _ ?_
  rintro entry other hne name hn _ hn' rfl
  have he := Entry.childName?_eq_some_iff.1 hn
  exact hne (he.trans (Entry.childName?_eq_some_iff.1 hn').symm)

theorem SameContents.children_perm {first second : FileTree} (same : first.SameContents second)
    (place : Location) : (first.children place).Perm (second.children place) := by
  rw [List.perm_ext_iff_of_nodup (first.nodup_children place) (second.nodup_children place)]
  intro name
  rw [mem_children_iff, mem_children_iff, same.nodes]

end FileTree

end SerialManifest

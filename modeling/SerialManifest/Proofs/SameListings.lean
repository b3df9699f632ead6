import SerialManifest.Proofs.ClasspathIndex
import SerialManifest.Proofs.SameShape

namespace SerialManifest

namespace FileTree

/-- Directories show the same names in the same order, and archives list the same entries. -/
structure SameListings (first second : FileTree) : Prop where
  shape : first.SameShape second
  children : ∀ place, first.children place = second.children place
  archives : ∀ path, Archive.isArchiveName path = true →
    (first.openArchive path).map Archive.names = (second.openArchive path).map Archive.names

variable {first second tree : FileTree}

theorem children_put_of_file {place : Location} {content : Content}
    (h : tree.node? place = some (.file content)) (node : Node) (other : Location) :
    (tree.put place node).children other = tree.children other := by
  have hp : place ≠ [] := by
    rintro rfl
    cases h
  obtain ⟨stored, hm, hplace, _⟩ := (node?_eq_some_iff hp).1 h
  have hentry : tree.entryAt? place = some stored := entryAt?_eq_some_iff.2 ⟨hm, hplace⟩
  have hrenew : (fun old : Entry => ((Entry.of place node).renew old).childName? other other.length) =
      fun old => old.childName? other other.length := by
    funext old
    refine Option.ext fun name => ?_
    rw [Entry.childName?_eq_some_iff, Entry.childName?_eq_some_iff, Entry.place_renew]
  simp only [children, put, hentry, Option.isSome_some, ↓reduceDIte, List.filterMap_map]
  exact congrArg (tree.entries.filterMap ·) hrenew

theorem SameShape.trans {third : FileTree} (same : first.SameShape second) (same' : second.SameShape third) :
    first.SameShape third where
  current := same.current.trans same'.current
  nodes place := by
    rcases same.nodes place with he | ⟨content, content', hc, hc'⟩
    · exact he ▸ same'.nodes place
    · rcases same'.nodes place with he | ⟨_, content'', _, hc''⟩
      · exact .inr ⟨content, content', hc, he ▸ hc'⟩
      · exact .inr ⟨content, content'', hc, hc''⟩

theorem SameListings.trans {third : FileTree} (same : first.SameListings second)
    (same' : second.SameListings third) : first.SameListings third where
  shape := same.shape.trans same'.shape
  children place := (same.children place).trans (same'.children place)
  archives path ha := (same.archives path ha).trans (same'.archives path ha)

/-- A file may be written over by one that lists the same, if it is taken for an archive anywhere. -/
theorem SameListings.put_file {place : Location} {content content' : Content}
    (h : tree.node? place = some (.file content))
    (hl : ∀ path, Archive.isArchiveName path = true → tree.resolve path = .ok place →
      (content.asArchive path).map Archive.names = (content'.asArchive path).map Archive.names) :
    tree.SameListings (tree.put place (.file content')) := by
  have hp : place ≠ [] := by
    rintro rfl
    cases h
  have shape : tree.SameShape (tree.put place (.file content')) := by
    refine ⟨(current_put tree place _).symm, fun other => ?_⟩
    by_cases ho : other = place
    · subst ho
      exact .inr ⟨content, content', h, node?_put_self tree hp _⟩
    · exact .inl (node?_put_other tree ho _).symm
  refine ⟨shape, fun other => (children_put_of_file h _ other).symm, fun path ha => ?_⟩
  simp only [openArchive, ← shape.resolve]
  cases hr : tree.resolve path with
  | error fault => rfl
  | ok other =>
    by_cases ho : other = place
    · subst ho
      simp only [contentAt, h, node?_put_self tree hp]
      exact hl path ha hr
    · simp only [contentAt, node?_put_other tree ho]

theorem walkArchive_eq (tree : FileTree) (path : String) : tree.walkArchive path =
    match (tree.openArchive path).map Archive.names with
    | .error error => .failed (.archive error)
    | .ok names => .of <| (names.filter (!Archive.isDirectoryName ·)).filterMap fun name =>
        (Candidate.typeName? name).map (⟨·, .entry path name⟩) := by
  unfold walkArchive
  cases tree.openArchive path <;> rfl

theorem SameListings.walkArchive (same : first.SameListings second) {path : String}
    (ha : Archive.isArchiveName path = true) : first.walkArchive path = second.walkArchive path := by
  rw [walkArchive_eq, walkArchive_eq, same.archives path ha]

theorem SameListings.walkFrom (same : first.SameListings second) (root path : String)
    (reached : Except FileFault Standing) (entered : List Entry) :
    first.walkFrom root path reached entered = second.walkFrom root path reached entered := by
  induction path, reached, entered using walkFrom.induct first root with
  | case1 path entered => rw [FileTree.walkFrom, FileTree.walkFrom]
  | case2 path entered fault hf => rw [walkFrom.eq_2 _ _ _ _ _ hf, walkFrom.eq_2 _ _ _ _ _ hf]
  | case3 path entered here hd hs =>
    have hs : here.spelt = false := by simpa using hs
    rw [walkFrom_of_unspelt hd hs, walkFrom_of_unspelt (same.shape.isDirectory here.place ▸ hd) hs]
  | case4 path entered here hd hs hc =>
    have hs : here.spelt = true := by simpa using hs
    rw [walkFrom_of_cycle hd hs hc, walkFrom_of_cycle (same.shape.isDirectory here.place ▸ hd) hs hc]
  | case5 path entered here hd hs hc ih =>
    have hs : here.spelt = true := by simpa using hs
    have hchild : first.walkChild root path here entered = second.walkChild root path here entered := by
      funext name
      rw [walkChild, walkChild, ← same.shape.reachChild]
      exact ih name
    rw [walkFrom_of_directory hd hs hc,
      walkFrom_of_directory (same.shape.isDirectory here.place ▸ hd) hs hc, hchild, same.children]
  | case6 path entered here hd ha =>
    rw [walkFrom_of_archive hd ha, walkFrom_of_archive (same.shape.isDirectory here.place ▸ hd) ha,
      same.walkArchive ha]
  | case7 path entered here hd ha =>
    rw [walkFrom_of_file hd ha, walkFrom_of_file (same.shape.isDirectory here.place ▸ hd) ha]

theorem SameListings.walk (same : first.SameListings second) (root : String) :
    first.walk root = second.walk root := by
  rw [FileTree.walk, FileTree.walk, same.shape.reach, same.walkFrom]

theorem SameListings.addRoots (same : first.SameListings second) (classpath : Classpath)
    (roots : List String) : classpath.addRoots first roots = classpath.addRoots second roots := by
  induction roots generalizing classpath with
  | nil => rfl
  | cons root roots ih =>
    have hroot : classpath.addRoot first root = classpath.addRoot second root := by
      rw [Classpath.addRoot, Classpath.addRoot, same.walk]
    simp only [Classpath.addRoots, hroot, ih]

/-- Roots are indexed alike, or cannot be indexed for the same reason. -/
theorem SameListings.ofRoots (same : first.SameListings second) (roots : List String) :
    Classpath.ofRoots first roots = Classpath.ofRoots second roots :=
  same.addRoots .empty roots

end FileTree

end SerialManifest

import SerialManifest.Proofs.ReplacedFile

namespace SerialManifest

namespace FileTree

variable {tree first second : FileTree} {directory path : String} {data : List UInt8} {place : Location}

/-- For what fault the disk keeps a temporary file in a directory from being created and filled. -/
def temporaryFault? (tree : FileTree) (directory : Location) (data : List UInt8) : Option FileFault :=
  (tree.disk.creating directory).or (tree.disk.filling directory data)

/-- Where a file comes to stand that is written as a whole, unless something is in the way. -/
def wholePlace (tree : FileTree) (directory path : String) (data : List UInt8) : Except FileFault Location := do
  let temporary ← tree.temporaryPlace (Path.join (fullPath tree.current) directory) path draws 0
  match tree.temporaryFault? temporary.tail data with
  | some fault => .error fault
  | none => (tree.put temporary (.file (.bytes data))).placeToReplace path

theorem wholePlace_of_temporary {temporary : Location}
    (h : tree.temporaryPlace (Path.join (fullPath tree.current) directory) path draws 0 = .ok temporary) :
    tree.wholePlace directory path data =
      match tree.temporaryFault? temporary.tail data with
      | some fault => .error fault
      | none => (tree.put temporary (.file (.bytes data))).placeToReplace path := by
  rw [wholePlace, h]
  rfl

/-- Nothing stands where a temporary file is created, and it is created in the directory that it is for. -/
theorem temporaryPlace_eq_ok {left draw : Nat} (h : tree.temporaryPlace directory path left draw = .ok place) :
    tree.node? place = none ∧ tree.placeToReplace path ≠ .ok place := by
  induction left generalizing draw with
  | zero =>
    rw [temporaryPlace] at h
    cases h
  | succ left ih =>
    rw [temporaryPlace] at h
    obtain ⟨first, _, h⟩ := Except.bind_eq_ok_iff.1 h
    split at h
    next => exact ih h
    next hfree =>
      cases h
      simp only [Bool.or_eq_true, beq_iff_eq, not_or, Option.not_isSome_iff_eq_none] at hfree
      exact ⟨hfree.1, fun he => hfree.2 (Except.toOption_eq_some_iff.2 he)⟩

theorem run_createTemporary (tree : FileTree) (directory path : String) :
    (createTemporary directory path).run.run tree =
      match tree.temporaryPlace (Path.join (fullPath tree.current) directory) path draws 0 with
      | .error fault => (.error fault, tree)
      | .ok place =>
        match tree.disk.creating place.tail with
        | some fault => (.error fault, tree)
        | none => (.ok place, tree.put place (.file (.bytes []))) := by
  unfold createTemporary
  rw [run_get_bind]
  cases tree.temporaryPlace (Path.join (fullPath tree.current) directory) path draws 0 with
  | error fault => rfl
  | ok place =>
    dsimp only
    cases tree.disk.creating place.tail <;> rfl

theorem run_fillTemporary (tree : FileTree) (place : Location) (data : List UInt8) :
    (fillTemporary place data).run.run tree =
      match tree.disk.filling place.tail data with
      | some fault => (.error fault, tree)
      | none => (.ok (), tree.put place (.file (.bytes data))) := by
  unfold fillTemporary
  rw [run_get_bind]
  cases tree.disk.filling place.tail data <;> rfl

theorem run_persist {temporary : Location} {node : Node} (h : tree.node? temporary = some node) (path : String) :
    (persist temporary path).run.run tree =
      match tree.placeToReplace path with
      | .error fault => (.error fault, tree)
      | .ok place => (.ok (), (tree.unlink temporary).put place node) := by
  unfold persist
  rw [run_get_bind, h]
  cases tree.placeToReplace path <;> rfl

/-- A temporary file that is not moved is removed. -/
theorem run_cleaned (action : FileAction Unit) (temporary : Location) (tree : FileTree) :
    (tryCatch action fun fault => do
        set ((← get).unlink temporary)
        throw fault).run.run tree =
      match action.run.run tree with
      | (.ok _, later) => (.ok (), later)
      | (.error fault, later) => (.error fault, later.unlink temporary) := by
  rw [Matches.run_tryCatch]
  obtain ⟨outcome, later⟩ := action.run.run tree
  cases outcome with
  | ok _ => rfl
  | error fault => exact run_get_bind _ _

theorem run_fillAndPersist {temporary : Location} (hnew : tree.node? temporary = none) (path : String)
    (data : List UInt8) :
    (do fillTemporary temporary data; persist temporary path : FileAction Unit).run.run
        (tree.put temporary (.file (.bytes []))) =
      match tree.disk.filling temporary.tail data with
      | some fault => (.error fault, tree.put temporary (.file (.bytes [])))
      | none =>
        match (tree.put temporary (.file (.bytes data))).placeToReplace path with
        | .error fault => (.error fault, tree.put temporary (.file (.bytes data)))
        | .ok place => (.ok (), tree.put place (.file (.bytes data))) := by
  have hentry := entryAt?_of_node? hnew
  have hne : temporary ≠ [] := by
    rintro rfl
    cases hnew
  rw [run_bind, run_fillTemporary, disk_put]
  cases tree.disk.filling temporary.tail data with
  | some fault => rfl
  | none =>
    dsimp only
    rw [put_put hentry, run_persist (node?_put_self tree hne _), unlink_put hentry]

/-- Writing a file as a whole puts it in its place or changes nothing. -/
theorem run_writeWhole (tree : FileTree) (directory path : String) (data : List UInt8) :
    (writeWhole directory path data).run.run tree =
      match tree.wholePlace directory path data with
      | .error fault => (.error fault, tree)
      | .ok place => (.ok (), tree.put place (.file (.bytes data))) := by
  have hcreate := run_createTemporary tree directory path
  unfold writeWhole
  cases htemporary : tree.temporaryPlace (Path.join (fullPath tree.current) directory) path draws 0 with
  | error fault =>
    rw [htemporary] at hcreate
    rw [run_bind_of_error hcreate, wholePlace, htemporary]
    rfl
  | ok temporary =>
    obtain ⟨hnew, _⟩ := temporaryPlace_eq_ok htemporary
    have hremoved := fun node => unlink_put (entryAt?_of_node? hnew) node
    rw [htemporary] at hcreate
    rw [wholePlace_of_temporary htemporary, temporaryFault?]
    cases hc : tree.disk.creating temporary.tail with
    | some fault =>
      simp only [hc] at hcreate
      exact run_bind_of_error hcreate
    | none =>
      simp only [hc] at hcreate
      refine (run_bind_of_ok hcreate).trans ?_
      rw [run_cleaned, run_fillAndPersist hnew]
      cases tree.disk.filling temporary.tail data with
      | some fault => exact congrArg (Prod.mk _) (hremoved _)
      | none =>
        dsimp only [Option.or]
        cases (tree.put temporary (.file (.bytes data))).placeToReplace path with
        | error fault => exact congrArg (Prod.mk _) (hremoved _)
        | ok place => rfl

theorem run_writeWhole_eq_ok_iff {later : FileTree} :
    (writeWhole directory path data).run.run tree = (.ok (), later) ↔
      ∃ place, tree.wholePlace directory path data = .ok place ∧ later = tree.put place (.file (.bytes data)) := by
  rw [run_writeWhole]
  cases tree.wholePlace directory path data with
  | error fault => exact ⟨nofun, nofun⟩
  | ok place =>
    constructor
    · rintro ⟨⟩
      exact ⟨place, rfl, rfl⟩
    · rintro ⟨_, ⟨⟩, rfl⟩
      rfl

theorem SameForWriting.wholePlace (same : first.SameForWriting second) (directory path : String)
    (data : List UInt8) : first.wholePlace directory path data = second.wholePlace directory path data := by
  simp only [FileTree.wholePlace, temporaryFault?, same.current, same.disk, same.toSameShape.temporaryPlace,
    (same.put _ _).toSameShape.placeToReplace]

theorem writeWhole_agree (directory path : String) (data : List UInt8) :
    Agree (writeWhole directory path data) (writeWhole directory path data) := by
  intro first second same
  rw [run_writeWhole, run_writeWhole, same.wholePlace]
  cases second.wholePlace directory path data with
  | error fault => exact ⟨rfl, same⟩
  | ok place => exact ⟨rfl, same.put place _⟩

/-- A temporary file stands in the way of no other file. -/
theorem placeToReplace_put_file {temporary : Location} {content : Content} (hn : tree.node? temporary = none) :
    (tree.put temporary (.file content)).placeToReplace path = .ok place ↔ tree.placeToReplace path = .ok place := by
  have hne : temporary ≠ [] := by
    rintro rfl
    cases hn
  have hshut : tree.Shut temporary := ⟨by rw [isDirectory, hn]; rfl, fun target => by rw [hn]; nofun⟩
  have hstart : ∀ route, (tree.put temporary (.file content)).start route = tree.start route := fun route => by
    rw [start, start, current_put]
  have hdirectory : ∀ other, (tree.put temporary (.file content)).isDirectory other = tree.isDirectory other := by
    intro other
    rw [Bool.eq_iff_iff, isDirectory_put_file tree hne content other, and_iff_right_iff_imp]
    rintro hd rfl
    cases hd.symm.trans hshut.1
  rw [placeToReplace_eq_ok_iff, placeToReplace_eq_ok_iff]
  simp only [hdirectory, slot_eq_ok_iff, hstart]
  constructor
  · rintro ⟨here, name, ⟨hroute, lead, hs, ho, hd, hl⟩, hrest⟩
    refine ⟨here, name, ⟨hroute, lead, hs, ?_, hd, hl⟩, hrest⟩
    refine (onward_put_file hne ho).resolve_left fun he => ?_
    rw [he, hshut.1] at hd
    cases hd
  · rintro ⟨here, name, ⟨hroute, lead, hs, ho, hd, hl⟩, hrest⟩
    exact ⟨here, name, ⟨hroute, lead, hs, onward_put_shut hshut ho hd, hd, hl⟩, hrest⟩

/-- A file that is written as a whole comes to stand where any node would that is moved to its path. -/
theorem wholePlace_eq_ok_iff : tree.wholePlace directory path data = .ok place ↔
    tree.placeToReplace path = .ok place ∧
      ∃ temporary, tree.temporaryPlace (Path.join (fullPath tree.current) directory) path draws 0 = .ok temporary ∧
        tree.temporaryFault? temporary.tail data = none := by
  cases htemporary : tree.temporaryPlace (Path.join (fullPath tree.current) directory) path draws 0 with
  | error fault =>
    rw [wholePlace, htemporary]
    exact ⟨nofun, nofun⟩
  | ok temporary =>
    rw [wholePlace_of_temporary htemporary]
    cases hfault : tree.temporaryFault? temporary.tail data with
    | some fault => simp [hfault]
    | none => simp [placeToReplace_put_file (temporaryPlace_eq_ok htemporary).1, hfault]

end FileTree

namespace Manifest

theorem holds_of_write {tree later : FileTree} {path header : String} {names : List String}
    (h : (write path header names).run.run tree = (.ok (), later)) :
    later.Holds path (.bytes (Text.Utf8.encode (render header names))) := by
  obtain ⟨_, _, _, hr⟩ := run_bind_eq_ok_iff.1 h
  obtain ⟨place, hplace, rfl⟩ := FileTree.run_writeWhole_eq_ok_iff.1 (run_adapt_eq_ok_iff.1 hr)
  exact FileTree.holds_of_put (FileTree.wholePlace_eq_ok_iff.1 hplace).1 _

end Manifest

end SerialManifest

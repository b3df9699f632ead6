import SerialManifest.Proofs.PathSpelling
import SerialManifest.Walk

namespace SerialManifest

namespace Walk

theorem mem_found_each {walk : String → Walk} {names : List String} {candidate : Candidate}
    (h : candidate ∈ (each walk names).found) : ∃ name ∈ names, candidate ∈ (walk name).found := by
  induction names with
  | nil => simp [of] at h
  | cons name names ih =>
    cases hf : (walk name).failure with
    | some error =>
      rw [each_cons_of_failure hf] at h
      exact ⟨name, List.mem_cons_self, h⟩
    | none =>
      rw [each_cons_of_success hf] at h
      rcases List.mem_append.1 h with h | h
      · exact ⟨name, List.mem_cons_self, h⟩
      · obtain ⟨other, ho, hc⟩ := ih h
        exact ⟨other, List.mem_cons_of_mem name ho, hc⟩

theorem failure_each_eq_none_iff {walk : String → Walk} {names : List String} :
    (each walk names).failure = none ↔ ∀ name ∈ names, (walk name).failure = none := by
  induction names with
  | nil => simp [of]
  | cons name names ih =>
    cases hf : (walk name).failure with
    | some error => simp [each_cons_of_failure hf, hf]
    | none => simp [each_cons_of_success hf, hf, ih]

theorem found_each {walk : String → Walk} {names : List String}
    (h : ∀ name ∈ names, (walk name).failure = none) :
    (each walk names).found = names.flatMap fun name => (walk name).found := by
  induction names with
  | nil => rfl
  | cons name names ih =>
    have hn := h name List.mem_cons_self
    rw [each_cons_of_success hn, List.flatMap_cons,
      ih fun other ho => h other (List.mem_cons_of_mem name ho)]

end Walk

namespace FileTree

variable {tree : FileTree} {root path : String} {here : Standing} {entered : List Entry}

/-- The walk of a child of the directory that a path has led to. -/
def walkChild (tree : FileTree) (root path : String) (here : Standing) (entered : List Entry)
    (name : String) : Walk :=
  tree.walkFrom root (Path.join path name)
    (tree.reachChild here (Path.join path name) name) (.of here.place .directory :: entered)

theorem walkFrom_of_unspelt (hd : tree.isDirectory here.place = true) (hs : here.spelt = false) :
    tree.walkFrom root path (.ok here) entered = .failed (.unreadable path .nameTooLong) := by
  rw [walkFrom, dif_pos hd]
  simp [hs]

theorem walkFrom_of_cycle (hd : tree.isDirectory here.place = true) (hs : here.spelt = true)
    (hc : Entry.anyAt entered here.place = true) :
    tree.walkFrom root path (.ok here) entered = .failed (.cycle path) := by
  rw [walkFrom, dif_pos hd]
  simp [hs, hc]

theorem walkFrom_of_directory (hd : tree.isDirectory here.place = true) (hs : here.spelt = true)
    (hc : ¬ Entry.anyAt entered here.place = true) :
    tree.walkFrom root path (.ok here) entered =
      .each (tree.walkChild root path here entered) (tree.children here.place) := by
  rw [walkFrom, dif_pos hd]
  simp only [hs, Bool.not_true, Bool.false_eq_true, ↓reduceIte, hc, ↓reduceDIte]
  rfl

theorem walkFrom_of_archive (hd : ¬ tree.isDirectory here.place = true)
    (ha : Archive.isArchiveName path = true) :
    tree.walkFrom root path (.ok here) entered = tree.walkArchive path := by
  rw [walkFrom, dif_neg hd, if_pos ha]

theorem walkFrom_of_file (hd : ¬ tree.isDirectory here.place = true)
    (ha : ¬ Archive.isArchiveName path = true) :
    tree.walkFrom root path (.ok here) entered = walkFile root path := by
  rw [walkFrom, dif_neg hd, if_neg ha]

theorem mem_found_walkFrom {reached : Except FileFault Standing} {candidate : Candidate}
    (h : candidate ∈ (tree.walkFrom root path reached entered).found) :
    (∃ place, Archive.isArchiveName place = true ∧ candidate ∈ (tree.walkArchive place).found) ∨
      ∃ place, candidate ∈ (walkFile root place).found := by
  induction path, reached, entered using walkFrom.induct tree root with
  | case1 path entered => simp [walkFrom, Walk.failed] at h
  | case2 path entered fault hf =>
    rw [walkFrom.eq_2 _ _ _ _ _ hf] at h
    simp [Walk.failed] at h
  | case3 path entered here hd hs =>
    rw [walkFrom_of_unspelt hd (by simpa using hs)] at h
    simp [Walk.failed] at h
  | case4 path entered here hd hs hc =>
    rw [walkFrom_of_cycle hd (by simpa using hs) hc] at h
    simp [Walk.failed] at h
  | case5 path entered here hd hs hc ih =>
    rw [walkFrom_of_directory hd (by simpa using hs) hc] at h
    obtain ⟨name, _, hn⟩ := Walk.mem_found_each h
    exact ih name hn
  | case6 path entered here hd ha =>
    rw [walkFrom_of_archive hd ha] at h
    exact .inl ⟨path, ha, h⟩
  | case7 path entered here hd ha =>
    rw [walkFrom_of_file hd ha] at h
    exact .inr ⟨path, h⟩

/-- What an archive is asked for later was listed in it, and the archive could be opened. -/
theorem mem_found_walkArchive {candidate : Candidate} (h : candidate ∈ (tree.walkArchive path).found) :
    ∃ archive name, tree.openArchive path = .ok archive ∧ name ∈ archive.names ∧
      candidate.origin = .entry path name := by
  unfold walkArchive at h
  split at h
  next => simp [Walk.failed] at h
  next archive ho =>
    simp only [Walk.of, List.mem_filterMap, Option.map_eq_some_iff] at h
    obtain ⟨name, hn, typeName, _, rfl⟩ := h
    exact ⟨archive, name, ho, (List.mem_filter.1 hn).1, rfl⟩

theorem mem_found_walkFile {candidate : Candidate} (h : candidate ∈ (walkFile root path).found) :
    candidate.origin = .file path := by
  unfold walkFile at h
  split at h
  · split at h
    next => exact List.mem_singleton.1 h ▸ rfl
    next => simp [Walk.of] at h
  · simp [Walk.of] at h

theorem route_of_resolve {place : Location} (h : tree.resolve path = .ok place) :
    FileTree.route path = .ok (Route.ofText path) := by
  cases hr : FileTree.route path with
  | ok route => rw [route_eq_ok hr]
  | error fault =>
    rw [resolve, reach, hr] at h
    cases h

theorem archivePath_of_openArchive {archive : Archive} (hn : Archive.isArchiveName path = true)
    (h : tree.openArchive path = .ok archive) : ArchivePath path := by
  unfold openArchive at h
  split at h
  next => cases h
  next place hr => exact ⟨hn, route_of_resolve hr⟩

theorem archivePath_of_mem_walk {archive name : String} {candidate : Candidate}
    (h : candidate ∈ (tree.walk root).found) (ho : candidate.origin = .entry archive name) :
    ArchivePath archive := by
  rcases mem_found_walkFrom h with ⟨place, hn, hc⟩ | ⟨place, hc⟩
  · obtain ⟨stored, entry, hopen, _, he⟩ := mem_found_walkArchive hc
    cases ho.symm.trans he
    exact archivePath_of_openArchive hn hopen
  · cases ho.symm.trans (mem_found_walkFile hc)

end FileTree

end SerialManifest

import SerialManifest.Proofs.PathAncestors
import SerialManifest.Proofs.ReplacedFile
import SerialManifest.Proofs.WalkEquations

namespace SerialManifest

/-- What a child of a directory may be called. -/
structure Path.ProperName (name : String) : Prop where
  nonempty : name ≠ ""
  notDot : name ≠ "."
  notDots : name ≠ ".."
  noSlash : '/' ∉ name.toList
  noNul : '\x00' ∉ name.toList

instance (name : String) : Decidable (Path.ProperName name) :=
  decidable_of_iff (name ≠ "" ∧ name ≠ "." ∧ name ≠ ".." ∧ '/' ∉ name.toList ∧ '\x00' ∉ name.toList)
    ⟨fun ⟨nonempty, notDot, notDots, noSlash, noNul⟩ => ⟨nonempty, notDot, notDots, noSlash, noNul⟩,
      fun h => ⟨h.nonempty, h.notDot, h.notDots, h.noSlash, h.noNul⟩⟩

section Joining

variable {path name : String}

theorem Path.ProperName.ofSegment (proper : Path.ProperName name) :
    Step.ofSegment name.toList = .child name := by
  have hdot : name.toList ≠ ['.'] := fun h => proper.notDot (String.toList_injective h)
  have hdots : name.toList ≠ ['.', '.'] := fun h => proper.notDots (String.toList_injective h)
  rw [Step.ofSegment, if_neg hdot, if_neg hdots, String.ofList_toList]

theorem Path.ProperName.not_isAbsolute (proper : Path.ProperName name) : Path.isAbsolute name = false := by
  cases hn : name.toList with
  | nil => simp [Path.isAbsolute, hn]
  | cons first rest =>
    have hf : first ≠ '/' := by
      rintro rfl
      exact proper.noSlash (hn ▸ List.mem_cons_self)
    simp [Path.isAbsolute, hn, hf]

theorem Route.steps_of_append (proper : Path.ProperName name) {text : String} {lead : List Char}
    (h : text.toList = lead ++ '/' :: name.toList) :
    (Route.ofText text).steps =
      ((Text.split '/' lead).filter (· != [])).map Step.ofSegment ++ [.child name] := by
  have hne : name.toList ≠ [] := fun he => proper.nonempty (String.toList_eq_nil_iff.1 he)
  have hsplit : Text.split '/' text.toList = Text.split '/' lead ++ [name.toList] := by
    rw [h, Text.split_append_sep, Text.split_of_not_mem proper.noSlash]
  simp [Route.ofText, hsplit, hne, proper.ofSegment]

theorem Path.join_eq (proper : Path.ProperName name) (hp : path ≠ "") : Path.join path name =
    if path.toList.getLast? = some '/' then path ++ name else path ++ "/" ++ name := by
  simp [Path.join, proper.not_isAbsolute, hp]

/-- One name further down a path asks for one more step. A slash at the end of the path does not show. -/
theorem Route.ofText_join (proper : Path.ProperName name) (hp : path ≠ "") :
    ∃ steps, ((Route.ofText path).steps = steps ∨ (Route.ofText path).steps = steps ++ [.closing]) ∧
      Route.ofText (Path.join path name) = ⟨(Route.ofText path).absolute, steps ++ [.child name]⟩ := by
  have hne : path.toList ≠ [] := fun he => hp (String.toList_eq_nil_iff.1 he)
  obtain ⟨text, last, ht⟩ : ∃ text last, path.toList = text ++ [last] :=
    ⟨_, _, (List.dropLast_concat_getLast hne).symm⟩
  have hroute : ∀ {joined : String} {rest : List Char} {steps : List Step},
      joined.toList = path.toList ++ rest → (Route.ofText joined).steps = steps →
        Route.ofText joined = ⟨(Route.ofText path).absolute, steps⟩ := by
    rintro joined rest steps hj rfl
    have habsolute : Path.isAbsolute joined = Path.isAbsolute path := by
      simp [Path.isAbsolute, hj, hne]
    exact congrArg (Route.mk · _) habsolute
  rw [Path.join_eq proper hp]
  by_cases hs : last = '/'
  · subst hs
    have hjoined : (path ++ name).toList = text ++ '/' :: name.toList := by
      simp [ht]
    have hsplit : Text.split '/' path.toList = Text.split '/' text ++ [[]] := by
      rw [ht, Text.split_append_sep]
      rfl
    rw [if_pos (by simp [ht])]
    refine ⟨((Text.split '/' text).filter (· != [])).map Step.ofSegment, .inr ?_,
      hroute (String.toList_append ..) (Route.steps_of_append proper hjoined)⟩
    have hlen : 0 < (Text.split '/' text).length := List.length_pos_iff.2 (Text.split_ne_nil '/' text)
    simp [Route.ofText, hsplit, hlen]
  · have hjoined : (path ++ "/" ++ name).toList = path.toList ++ '/' :: name.toList := by
      simp
    obtain ⟨segment, hlast⟩ := getLast?_split_append hs text
    rw [if_neg (by simp [ht, hs])]
    refine ⟨((Text.split '/' path.toList).filter (· != [])).map Step.ofSegment, .inl ?_,
      hroute hjoined (Route.steps_of_append proper hjoined)⟩
    rw [← ht] at hlast
    simp [Route.ofText, hlast]

theorem Route.steps_ne_nil (hp : path ≠ "") : (Route.ofText path).steps ≠ [] := by
  intro hs
  obtain ⟨hfilter, hclosing⟩ := List.append_eq_nil_iff.1 hs
  have hempty : ∀ piece ∈ Text.split '/' path.toList, piece = [] := by
    simpa using hfilter
  have hjoin := Text.join_split '/' path.toList
  cases hsplit : Text.split '/' path.toList with
  | nil => exact Text.split_ne_nil '/' _ hsplit
  | cons first rest =>
    rw [hsplit] at hempty hclosing hjoin
    cases rest with
    | nil =>
      rw [hempty first List.mem_cons_self] at hjoin
      exact hp (String.toList_eq_nil_iff.1 hjoin.symm)
    | cons second others =>
      have hlast : (first :: second :: others).getLast? = some [] := by
        rw [List.getLast?_eq_some_getLast (List.cons_ne_nil _ _), hempty _ (List.getLast_mem _)]
      simp [hlast] at hclosing

end Joining

namespace FileTree

variable {tree : FileTree} {path name : String} {here there : Standing} {place : Location}

/-- Looking up the path of a child is going on from the directory to which the path of the directory leads. -/
theorem reach_join (proper : Path.ProperName name) (hr : tree.reach path = .ok here) :
    tree.reach (Path.join path name) = tree.reachChild here (Path.join path name) name := by
  obtain ⟨route, hroute, honward⟩ := Except.bind_eq_ok_iff.1 hr
  obtain ⟨hnul, hlong, hne, rfl⟩ := route_eq_ok_iff.1 hroute
  obtain ⟨steps, hsteps, hjoined⟩ := Route.ofText_join proper hne
  have hlead : tree.onward (tree.start (Route.ofText path)) steps = .ok here := by
    rcases hsteps with hs | hs
    · exact hs ▸ honward
    · rw [hs, onward_append] at honward
      obtain ⟨middle, hmiddle, hclosing⟩ := Except.bind_eq_ok_iff.1 honward
      obtain ⟨_, rfl⟩ := (onward_nameless_eq_ok_iff (by simp)).1 hclosing
      exact hmiddle
  have hnul' : '\x00' ∉ (Path.join path name).toList := by
    rw [Path.join_eq proper hne]
    split <;> simp [hnul, proper.noNul]
  have hne' : Path.join path name ≠ "" := by
    rw [Path.join_eq proper hne]
    split <;> simp [hne]
  unfold reachChild
  by_cases hlong' : longestPath < (Path.join path name).utf8ByteSize
  · have hfault : FileTree.route (Path.join path name) = .error .nameTooLong := by
      simp [FileTree.route, hnul', hlong']
    rw [if_pos hlong', reach, hfault]
    rfl
  · have hroute' := route_eq_ok_iff.2 ⟨hnul', hlong', hne', rfl⟩
    rw [if_neg hlong', reach_eq hroute', hjoined]
    change tree.onward (tree.start (Route.ofText path)) (steps ++ [.child name]) = _
    rw [onward_append, hlead]
    rfl

/-- Every entry has a proper name and lies in a directory, as file systems see to. -/
structure WellFormed (tree : FileTree) : Prop where
  names : ∀ entry ∈ tree.entries, ∀ name ∈ entry.place.head?, Path.ProperName name
  parents : ∀ entry ∈ tree.entries, tree.isDirectory entry.place.tail = true

def Stands (tree : FileTree) (place : Location) : Prop :=
  tree.isDirectory place = true ∨ ∃ content, tree.node? place = some (.file content)

def LeadsToFile (tree : FileTree) (path : String) (content : Content) : Prop :=
  ∃ place, tree.resolve path = .ok place ∧ tree.contentAt place = .ok content

theorem LeadsToFile.readBytes {content : Content} (h : tree.LeadsToFile path content) :
    tree.readBytes path = content.read := by
  obtain ⟨place, hr, hc⟩ := h
  rw [FileTree.readBytes, hr]
  change (tree.contentAt place).bind Content.read = _
  rw [hc]
  rfl

section WellFormed

variable (wellFormed : tree.WellFormed)
include wellFormed

theorem WellFormed.properName (h : name ∈ tree.children place) : Path.ProperName name := by
  obtain ⟨entry, hm, hn⟩ := List.mem_filterMap.1 h
  have hplace := Entry.childName?_eq_some_iff.1 hn
  exact wellFormed.names entry hm name (by rw [hplace]; rfl)

theorem WellFormed.properName_of_node? {outer : Location} {node : Node}
    (h : tree.node? (name :: outer) = some node) : Path.ProperName name := by
  obtain ⟨entry, hm, hp, _⟩ := (node?_eq_some_iff (List.cons_ne_nil name outer)).1 h
  exact wellFormed.names entry hm name (by rw [hp]; rfl)

theorem WellFormed.isDirectory_tail (hd : tree.isDirectory place = true) :
    tree.isDirectory place.tail = true := by
  by_cases hp : place = []
  · subst hp
    exact hd
  · obtain ⟨entry, hm, rfl, _⟩ := (node?_eq_some_iff hp).1 (beq_iff_eq.1 hd)
    exact wellFormed.parents entry hm

theorem WellFormed.stands_of_advance {jump : Standing → List Step → Except FileFault Standing}
    (hj : ∀ here steps there, tree.isDirectory here.place = true → jump here steps = .ok there →
      tree.Stands there.place) {steps : List Step} (hs : tree.Stands here.place ∨ steps ≠ [])
    (h : tree.advance .refuse jump here steps = .ok there) : tree.Stands there.place := by
  induction steps generalizing here with
  | nil =>
    cases h
    exact hs.resolve_right (by simp)
  | cons step rest ih =>
    cases step with
    | child name =>
      obtain ⟨hd, _, ⟨target, _, hjump⟩ | ⟨node, hn, hnot, hrest⟩⟩ := advance_child_eq_ok_iff.1 h
      · refine hj _ _ _ ?_ hjump
        simp only [Standing.link]
        split
        · rfl
        · exact hd
      · refine ih (.inl ?_) hrest
        cases node with
        | directory => exact .inl (beq_iff_eq.2 hn)
        | file content => exact .inr ⟨content, hn⟩
        | link target => exact absurd rfl (hnot target)
    | up =>
      obtain ⟨hd, hrest⟩ := (advance_nameless_eq_ok_iff (by simp)).1 h
      exact ih (.inl (.inl (wellFormed.isDirectory_tail hd))) hrest
    | _ =>
      obtain ⟨hd, hrest⟩ := (advance_nameless_eq_ok_iff (by simp)).1 h
      exact ih (.inl (.inl hd)) hrest

theorem WellFormed.stands_of_onward {steps : List Step} (hs : tree.Stands here.place ∨ steps ≠ [])
    (h : tree.onward here steps = .ok there) : tree.Stands there.place := by
  unfold onward at h
  generalize here.links = links at h
  induction links generalizing here there steps with
  | zero => exact wellFormed.stands_of_advance (fun _ _ _ _ hn => by cases hn) hs h
  | succ links ih =>
    exact wellFormed.stands_of_advance (fun _ _ _ hd hn => ih (.inl (.inl hd)) hn) hs h

theorem WellFormed.stands_of_reach (h : tree.reach path = .ok here) : tree.Stands here.place := by
  obtain ⟨route, hroute, honward⟩ := Except.bind_eq_ok_iff.1 h
  obtain ⟨_, _, hne, rfl⟩ := route_eq_ok_iff.1 hroute
  exact wellFormed.stands_of_onward (.inr (Route.steps_ne_nil hne)) honward

theorem WellFormed.leadsToFile_of_reach (h : tree.reach path = .ok here)
    (hd : ¬ tree.isDirectory here.place = true) : ∃ content, tree.LeadsToFile path content := by
  obtain ⟨content, hc⟩ := (wellFormed.stands_of_reach h).resolve_left hd
  refine ⟨content, here.place, ?_, ?_⟩
  · rw [resolve, h]
    rfl
  · rw [contentAt, hc]

end WellFormed

/-- There is a file at a place, or an archive that lists the entry. -/
def Locates (tree : FileTree) : Origin → Prop
  | .file path => ∃ content, tree.LeadsToFile path content
  | .entry path name => ∃ archive, tree.openArchive path = .ok archive ∧ name ∈ archive.names

theorem WellFormed.locates_of_mem_walkFrom (wellFormed : tree.WellFormed) {root : String}
    {reached : Except FileFault Standing} {entered : List Entry} {candidate : Candidate}
    (hreached : tree.reach path = reached)
    (h : candidate ∈ (tree.walkFrom root path reached entered).found) : tree.Locates candidate.origin := by
  induction path, reached, entered using walkFrom.induct tree root with
  | case1 path entered => simp [walkFrom, Walk.failed] at h
  | case2 path entered fault hf =>
    rw [walkFrom.eq_2 _ _ _ _ _ hf] at h
    simp [Walk.failed] at h
  | case3 path entered here hd hs =>
    rw [walkFrom_of_unspelt hd (by simpa using hs)] at h
    simp [Walk.failed] at h
  | case4 path entered here hd hs hc =>
    rw [walkFrom_of_cycle hd (by simpa using hs) hc] at h
    simp [Walk.failed] at h
  | case5 path entered here hd hs hc ih =>
    rw [walkFrom_of_directory hd (by simpa using hs) hc] at h
    obtain ⟨name, hm, hn⟩ := Walk.mem_found_each h
    exact ih name (reach_join (wellFormed.properName hm) hreached) hn
  | case6 path entered here hd ha =>
    rw [walkFrom_of_archive hd ha] at h
    obtain ⟨archive, name, hopen, hm, ho⟩ := mem_found_walkArchive h
    rw [ho]
    exact ⟨archive, hopen, hm⟩
  | case7 path entered here hd ha =>
    rw [walkFrom_of_file hd ha] at h
    rw [mem_found_walkFile h]
    exact wellFormed.leadsToFile_of_reach hreached hd

/-- What a walk has taken down can be found again. -/
theorem WellFormed.locates_of_mem_walk (wellFormed : tree.WellFormed) {root : String} {candidate : Candidate}
    (h : candidate ∈ (tree.walk root).found) : tree.Locates candidate.origin :=
  wellFormed.locates_of_mem_walkFrom rfl h

end FileTree

end SerialManifest

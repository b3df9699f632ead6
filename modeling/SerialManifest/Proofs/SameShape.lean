import SerialManifest.Proofs.FileTreeNodes
import SerialManifest.Proofs.FixedAnswers

namespace SerialManifest

/-- Two actions do the same to states that are alike: they come to the same and leave them alike. -/
def Matches {ε σ α : Type} (Alike : σ → σ → Prop) (first second : ExceptT ε (StateM σ) α) : Prop :=
  ∀ s t, Alike s t → (first.run.run s).1 = (second.run.run t).1 ∧
    Alike (first.run.run s).2 (second.run.run t).2

namespace Matches

variable {ε ε' σ α β : Type} {Alike : σ → σ → Prop} {first second : ExceptT ε (StateM σ) α}

theorem pure (value : α) : Matches Alike (Pure.pure value : ExceptT ε (StateM σ) α) (Pure.pure value) :=
  fun _ _ alike => ⟨rfl, alike⟩

theorem throw (error : ε) : Matches Alike (throw error : ExceptT ε (StateM σ) α) (throw error) :=
  fun _ _ alike => ⟨rfl, alike⟩

theorem set {s t : σ} (h : Alike s t) :
    Matches Alike (set s : ExceptT ε (StateM σ) PUnit) (MonadStateOf.set t) :=
  fun _ _ _ => ⟨rfl, h⟩

theorem bind {next next' : α → ExceptT ε (StateM σ) β} (h : Matches Alike first second)
    (hn : ∀ value, Matches Alike (next value) (next' value)) :
    Matches Alike (first >>= next) (second >>= next') := by
  intro s t alike
  obtain ⟨hr, ha⟩ := h s t alike
  rw [run_bind, run_bind]
  generalize first.run.run s = after at hr ha
  generalize second.run.run t = after' at hr ha
  obtain ⟨result, later⟩ := after
  obtain ⟨result', later'⟩ := after'
  cases hr
  cases result with
  | error error => exact ⟨rfl, ha⟩
  | ok value => exact hn value later later' ha

theorem get_bind {next next' : σ → ExceptT ε (StateM σ) α}
    (h : ∀ s t, Alike s t → Matches Alike (next s) (next' t)) :
    Matches Alike (get >>= next) (get >>= next') :=
  fun s t alike => h s t alike s t alike

theorem run_tryCatch (action : ExceptT ε (StateM σ) α) (rescue : ε → ExceptT ε (StateM σ) α) (state : σ) :
    (MonadExcept.tryCatch action rescue).run.run state =
      match action.run.run state with
      | (.ok value, later) => (.ok value, later)
      | (.error error, later) => (rescue error).run.run later := by
  change (ExceptT.tryCatch action rescue).run.run state = _
  rw [ExceptT.tryCatch, ExceptT.run_mk, StateT.run_bind]
  generalize hafter : action.run.run state = after
  have hafter : StateT.run action state = after := hafter
  rw [hafter]
  obtain ⟨result, later⟩ := after
  cases result <;> rfl

theorem tryCatch {handle handle' : ε → ExceptT ε (StateM σ) α} (h : Matches Alike first second)
    (hh : ∀ error, Matches Alike (handle error) (handle' error)) :
    Matches Alike (MonadExcept.tryCatch first handle) (MonadExcept.tryCatch second handle') := by
  intro s t alike
  obtain ⟨hr, ha⟩ := h s t alike
  rw [run_tryCatch, run_tryCatch]
  generalize first.run.run s = after at hr ha
  generalize second.run.run t = after' at hr ha
  obtain ⟨result, later⟩ := after
  obtain ⟨result', later'⟩ := after'
  cases hr
  cases result with
  | error error => exact hh error later later' ha
  | ok value => exact ⟨rfl, ha⟩

theorem adapt (raise : ε → ε') (h : Matches Alike first second) :
    Matches Alike (first.adapt raise) (second.adapt raise) := by
  intro s t alike
  obtain ⟨hr, ha⟩ := h s t alike
  rw [run_adapt, run_adapt, hr]
  exact ⟨rfl, ha⟩

end Matches

namespace FileTree

/-- At every place stands the same in both trees, or a file each. -/
structure SameShape (first second : FileTree) : Prop where
  current : first.current = second.current
  nodes : ∀ place, first.node? place = second.node? place ∨
    ∃ content content', first.node? place = some (.file content) ∧
      second.node? place = some (.file content')

section Reading

variable {first second : FileTree} (same : first.SameShape second)
include same

theorem SameShape.isDirectory (place : Location) : first.isDirectory place = second.isDirectory place := by
  unfold FileTree.isDirectory
  rcases same.nodes place with he | ⟨content, content', hc, hc'⟩
  · rw [he]
  · rw [hc, hc']
    rfl

theorem SameShape.isSome_node? (place : Location) :
    (first.node? place).isSome = (second.node? place).isSome := by
  rcases same.nodes place with he | ⟨content, content', hc, hc'⟩
  · rw [he]
  · rw [hc, hc']
    rfl

theorem SameShape.advance (missing : Missing)
    {jump jump' : Standing → List Step → Except FileFault Standing}
    (hj : ∀ here steps, jump here steps = jump' here steps) (here : Standing) (steps : List Step) :
    first.advance missing jump here steps = second.advance missing jump' here steps := by
  induction steps generalizing here with
  | nil => rfl
  | cons step rest ih =>
    cases step with
    | child name =>
      simp only [FileTree.advance, same.isDirectory]
      rcases same.nodes (name :: here.place) with he | ⟨content, content', hc, hc'⟩
      · simp only [he, ih, hj]
      · simp only [hc, hc', ih]
    | _ => simp only [FileTree.advance, same.isDirectory, ih]

theorem SameShape.follow (missing : Missing) (links : Nat) (here : Standing) (steps : List Step) :
    first.follow missing links here steps = second.follow missing links here steps := by
  induction links generalizing here steps with
  | zero => exact same.advance missing (fun _ _ => rfl) here steps
  | succ links ih => exact same.advance missing ih here steps

theorem SameShape.onward (here : Standing) (steps : List Step) :
    first.onward here steps = second.onward here steps :=
  same.follow .refuse here.links here steps

theorem SameShape.start (route : Route) : first.start route = second.start route := by
  rw [FileTree.start, FileTree.start, same.current]

theorem SameShape.reach (path : String) : first.reach path = second.reach path := by
  simp only [FileTree.reach, same.start, same.onward]

theorem SameShape.reachChild (here : Standing) (path name : String) :
    first.reachChild here path name = second.reachChild here path name := by
  simp only [FileTree.reachChild, same.onward]

theorem SameShape.resolve (path : String) : first.resolve path = second.resolve path := by
  rw [FileTree.resolve, FileTree.resolve, same.reach]

theorem SameShape.slot (path : String) : first.slot path = second.slot path := by
  simp only [FileTree.slot, same.start, same.onward, same.isDirectory]

theorem SameShape.placeToReplace (path : String) : first.placeToReplace path = second.placeToReplace path := by
  simp only [FileTree.placeToReplace, same.slot, same.isDirectory]

theorem SameShape.placeToCreate (path : String) : first.placeToCreate path = second.placeToCreate path := by
  simp only [FileTree.placeToCreate, same.slot]

theorem SameShape.temporaryPlace (directory path : String) (left draw : Nat) :
    first.temporaryPlace directory path left draw = second.temporaryPlace directory path left draw := by
  induction left generalizing draw with
  | zero => rw [FileTree.temporaryPlace, FileTree.temporaryPlace]
  | succ left ih =>
    simp only [FileTree.temporaryPlace, same.placeToCreate, same.placeToReplace, same.isSome_node?, ih]

end Reading

/-- Trees of one shape with the same files that refuse to be written into, and a disk that does the same. -/
structure SameForWriting (first second : FileTree) : Prop extends SameShape first second where
  disk : first.disk = second.disk
  refusals : ∀ place, first.refusal? place = second.refusal? place

section Writing

variable {first second : FileTree}

theorem refusal?_of_nodes {first second : FileTree} {place : Location} (hdisk : first.disk = second.disk)
    (h : first.node? place = second.node? place) : first.refusal? place = second.refusal? place := by
  rw [refusal?, refusal?, h, hdisk]

theorem refusal?_of_bytes {tree : FileTree} {place : Location} {data : List UInt8}
    (h : tree.node? place = some (.file (.bytes data))) : tree.refusal? place = none := by
  rw [refusal?, h]
  rfl

theorem ne_nil_of_refusal? {tree : FileTree} {place : Location} (h : tree.refusal? place = none) :
    place ≠ [] := by
  rintro rfl
  cases h

theorem SameForWriting.resolveForWriting (same : first.SameForWriting second) (path : String) :
    first.resolveForWriting path = second.resolveForWriting path := by
  simp only [FileTree.resolveForWriting, same.toSameShape.start, same.toSameShape.follow, same.refusals]

theorem SameForWriting.put (same : first.SameForWriting second) (place : Location) (node : Node) :
    (first.put place node).SameForWriting (second.put place node) where
  current := by rw [current_put, current_put, same.current]
  disk := by rw [disk_put, disk_put, same.disk]
  nodes other := by
    rw [node?_put, node?_put]
    split
    · exact .inl rfl
    · exact same.nodes other
  refusals other := by
    have hput := node?_put first place other node
    have hput' := node?_put second place other node
    split at hput
    next h =>
      rw [if_pos h] at hput'
      exact refusal?_of_nodes (by rw [disk_put, disk_put, same.disk]) (hput.trans hput'.symm)
    next h =>
      rw [if_neg h] at hput'
      rw [refusal?_of_nodes (disk_put _ _ _) hput, refusal?_of_nodes (disk_put _ _ _) hput', same.refusals]

/-- What goes by other names of a file that can be written into holds the same and can be written into. -/
theorem OneFile.exists_content {tree : FileTree} {place other : Location} (h : tree.OneFile place other)
    (hne : other ≠ place) (hr : tree.refusal? place = none) :
    ∃ content, tree.node? other = some (.file content) ∧ content.refusal? = none := by
  rcases h with rfl | ⟨_, content, _, _, hp, ho⟩
  · exact absurd rfl hne
  · rw [refusal?, hp] at hr
    exact ⟨content, ho, hr⟩

/-- At every place that is written into in either of two trees stands a file in both, or it is the place itself. -/
theorem SameShape.file_of_oneFile (same : first.SameShape second) {place other : Location}
    (h : first.OneFile place other) (hne : other ≠ place) (hr : first.refusal? place = none) :
    ∃ content, second.node? other = some (.file content) := by
  obtain ⟨content, hfile, _⟩ := h.exists_content hne hr
  rcases same.nodes other with he | ⟨_, content', _, hc⟩
  · exact ⟨content, he ▸ hfile⟩
  · exact ⟨content', hc⟩

theorem SameShape.symm (same : first.SameShape second) : second.SameShape first :=
  ⟨same.current.symm, fun place => (same.nodes place).imp Eq.symm fun ⟨c, c', h, h'⟩ => ⟨c', c, h', h⟩⟩

theorem refusal?_fill {tree : FileTree} {place : Location} (h : tree.refusal? place = none) (data : List UInt8)
    (other : Location) : (tree.fill place (.bytes data)).refusal? other = tree.refusal? other := by
  have hp := ne_nil_of_refusal? h
  by_cases hone : tree.OneFile place other
  · rw [refusal?_of_bytes (node?_fill_of_oneFile hp hone)]
    by_cases hne : other = place
    · rw [hne, h]
    · obtain ⟨content, hc, hr⟩ := hone.exists_content hne h
      rw [refusal?, hc]
      exact hr.symm
  · exact refusal?_of_nodes (disk_fill _ _ _) (node?_fill_of_not hp hone)

/-- What the files hold that are written does not matter. -/
theorem SameForWriting.fill (same : first.SameForWriting second) {place : Location}
    (h : first.refusal? place = none) (data data' : List UInt8) :
    (first.fill place (.bytes data)).SameForWriting (second.fill place (.bytes data')) where
  current := by rw [current_fill, current_fill, same.current]
  disk := by rw [disk_fill, disk_fill, same.disk]
  nodes other := by
    have hp := ne_nil_of_refusal? h
    have h' : second.refusal? place = none := same.refusals place ▸ h
    by_cases hone : first.OneFile place other
    · right
      by_cases htwo : second.OneFile place other
      · exact ⟨_, _, node?_fill_of_oneFile hp hone, node?_fill_of_oneFile hp htwo⟩
      · have hne : other ≠ place := fun he => htwo (he ▸ .refl second place)
        obtain ⟨content, hc⟩ := same.toSameShape.file_of_oneFile hone hne h
        exact ⟨_, content, node?_fill_of_oneFile hp hone, (node?_fill_of_not hp htwo).trans hc⟩
    · rw [node?_fill_of_not hp hone]
      by_cases htwo : second.OneFile place other
      · have hne : other ≠ place := fun he => hone (he ▸ .refl first place)
        obtain ⟨content, hc⟩ := same.toSameShape.symm.file_of_oneFile htwo hne h'
        exact .inr ⟨content, _, hc, node?_fill_of_oneFile hp htwo⟩
      · rw [node?_fill_of_not hp htwo]
        exact same.nodes other
  refusals other := by
    have h' : second.refusal? place = none := same.refusals place ▸ h
    rw [refusal?_fill h, refusal?_fill h', same.refusals]

/-- Two actions do the same to trees that are alike to writers. -/
abbrev Agree {ε α : Type} (first second : ExceptT ε (StateM FileTree) α) : Prop :=
  Matches SameForWriting first second

theorem createChild_agree (here : Standing) (name : String) :
    Agree (createChild here name) (createChild here name) := by
  refine .get_bind fun first second same => ?_
  rw [same.toSameShape.isSome_node?, same.disk]
  split
  · exact .throw _
  · split
    · exact .throw _
    · exact (Matches.set (same.put _ _)).bind fun _ => .pure _

theorem createDirectory_agree (path : String) : Agree (createDirectory path) (createDirectory path) := by
  refine .get_bind fun first second same => ?_
  rw [same.toSameShape.slot]
  split
  · exact .throw _
  · exact .throw _
  · exact createChild_agree _ _

theorem createLast_agree (here : Standing) (path : String) :
    Agree (createLast here path) (createLast here path) := by
  unfold createLast
  split
  · split
    · exact .throw _
    · exact createChild_agree _ _
  · exact .throw _

theorem excuse_agree (path : String) (fault : FileFault) :
    Agree (excuse path fault) (excuse path fault) := by
  refine .get_bind fun first second same => ?_
  rw [same.toSameShape.reach]
  split
  · rw [same.toSameShape.isDirectory]
    split
    · exact .pure _
    · exact .throw _
  · exact .throw _

theorem createAll_agree (paths : List String) : Agree (createAll paths) (createAll paths) := by
  induction paths with
  | nil =>
    refine .get_bind fun first second same => ?_
    rw [same.current]
    exact .pure _
  | cons path outer ih =>
    refine (createDirectory_agree path).tryCatch fun fault => ?_
    split
    · exact ih.bind fun here => (createLast_agree here path).tryCatch fun fault => excuse_agree path fault
    · exact excuse_agree path fault

theorem createDirectories_agree (path : String) : Agree (createDirectories path) (createDirectories path) :=
  (createAll_agree _).bind fun _ => .pure ()

theorem refusal?_of_resolveForWriting {tree : FileTree} {path : String} {place : Location}
    (h : tree.resolveForWriting path = .ok place) : tree.refusal? place = none := by
  obtain ⟨_, _, h⟩ := Except.bind_eq_ok_iff.1 h
  obtain ⟨here, _, h⟩ := Except.bind_eq_ok_iff.1 h
  split at h
  next => cases h
  next hn =>
    cases h
    exact hn

theorem write_agree (path : String) (data data' : List UInt8) :
    Agree (write path data) (write path data') := by
  refine .get_bind fun first second same => ?_
  rw [← same.resolveForWriting]
  split
  · exact .throw _
  next place hplace => exact .set (same.fill (refusal?_of_resolveForWriting hplace) _ _)

end Writing

end FileTree

end SerialManifest

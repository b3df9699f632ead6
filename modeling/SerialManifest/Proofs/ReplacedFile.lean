import SerialManifest.Proofs.PathSpelling
import SerialManifest.Proofs.SameShape
import SerialManifest.Report.Output

namespace SerialManifest

/-- Where a step leads that does not ask for a name. -/
def Standing.after (here : Standing) : Step → Standing
  | .up => { here with place := here.place.tail }
  | _ => here

namespace FileTree

variable {tree : FileTree} {place : Location} {content : Content}

section Advance

variable {jump : Standing → List Step → Except FileFault Standing} {here there : Standing}
variable {step : Step} {name : String} {rest : List Step}

theorem advance_nameless_eq_ok_iff {missing : Missing} (hs : ∀ name, step ≠ .child name) :
    tree.advance missing jump here (step :: rest) = .ok there ↔ tree.isDirectory here.place = true ∧
      tree.advance missing jump (here.after step) rest = .ok there := by
  cases step with
  | child name => exact absurd rfl (hs name)
  | _ =>
    rw [advance]
    by_cases hd : tree.isDirectory here.place = true
    · simp [hd, Standing.after]
    · simp [hd]

theorem onward_nameless_eq_ok_iff (hs : ∀ name, step ≠ .child name) :
    tree.onward here [step] = .ok there ↔ tree.isDirectory here.place = true ∧ there = here.after step := by
  obtain ⟨jump, hjump⟩ := onward_eq_advance tree here [step]
  rw [hjump, advance_nameless_eq_ok_iff hs, advance, Except.ok.injEq]
  exact and_congr_right fun _ => eq_comm

theorem advance_child_eq_ok_iff :
    tree.advance .refuse jump here (.child name :: rest) = .ok there ↔
      tree.isDirectory here.place = true ∧ ¬ longestName < name.utf8ByteSize ∧
        ((∃ target, tree.node? (name :: here.place) = some (.link target) ∧
            jump (here.link name (Route.ofText target)) ((Route.ofText target).steps ++ rest) = .ok there) ∨
          ∃ node, tree.node? (name :: here.place) = some node ∧ (∀ target, node ≠ .link target) ∧
            tree.advance .refuse jump (here.child name) rest = .ok there) := by
  rw [advance]
  by_cases hd : tree.isDirectory here.place = true
  · by_cases hl : longestName < name.utf8ByteSize
    · simp [hd, hl]
    · cases hn : tree.node? (name :: here.place) with
      | none => simp [hd, hl]
      | some node => cases node <;> simp [hd, hl]
  · simp [hd]

end Advance

theorem isDirectory_put_file (tree : FileTree) (hp : place ≠ []) (content : Content) (other : Location) :
    (tree.put place (.file content)).isDirectory other = true ↔
      other ≠ place ∧ tree.isDirectory other = true := by
  unfold isDirectory
  rw [node?_put]
  by_cases ho : other = place
  · simp [ho, hp]
  · simp [ho]

/-- From a place that is no directory no step leads on. -/
theorem advance_of_not_isDirectory {missing : Missing}
    {jump : Standing → List Step → Except FileFault Standing} {here there : Standing} {steps : List Step}
    (hn : ¬ tree.isDirectory here.place = true)
    (h : tree.advance missing jump here steps = .ok there) : there = here := by
  cases steps with
  | nil => exact (Except.ok.inj h).symm
  | cons step rest =>
    unfold advance at h
    rw [if_neg hn] at h
    cases h

theorem onward_of_not_isDirectory {here there : Standing} {steps : List Step}
    (hn : ¬ tree.isDirectory here.place = true) (h : tree.onward here steps = .ok there) :
    there = here := by
  obtain ⟨jump, hjump⟩ := onward_eq_advance tree here steps
  exact advance_of_not_isDirectory hn (hjump ▸ h)

theorem advance_put_file (hp : place ≠ []) {jump jump' : Standing → List Step → Except FileFault Standing}
    (hj : ∀ here steps there, jump' here steps = .ok there →
      there.place = place ∨ jump here steps = .ok there)
    {here there : Standing} {steps : List Step}
    (h : (tree.put place (.file content)).advance .refuse jump' here steps = .ok there) :
    there.place = place ∨ tree.advance .refuse jump here steps = .ok there := by
  induction steps generalizing here with
  | nil => exact .inr h
  | cons step rest ih =>
    cases step with
    | child name =>
      obtain ⟨hd, hl, hcases⟩ := advance_child_eq_ok_iff.1 h
      have hd := ((isDirectory_put_file tree hp content here.place).1 hd).2
      -- the new file ends every way that comes to it; elsewhere the trees do not differ
      by_cases hn : name :: here.place = place
      · left
        have hfile : (tree.put place (.file content)).node? (name :: here.place) =
            some (.file content) := by
          rw [hn, node?_put_self tree hp]
        have hstop : ¬ (tree.put place (.file content)).isDirectory (here.child name).place = true := by
          rw [isDirectory_put_file tree hp]
          exact fun hd => hd.1 hn
        rcases hcases with ⟨target, hlink, _⟩ | ⟨node, _, _, hrest⟩
        · cases hfile.symm.trans hlink
        · rw [advance_of_not_isDirectory hstop hrest]
          exact hn
      · rw [node?_put_other tree hn] at hcases
        rcases hcases with ⟨target, hlink, hjump⟩ | ⟨node, hnode, hnot, hrest⟩
        · refine (hj _ _ _ hjump).imp_right fun hjump => ?_
          exact advance_child_eq_ok_iff.2 ⟨hd, hl, .inl ⟨target, hlink, hjump⟩⟩
        · refine (ih hrest).imp_right fun hrest => ?_
          exact advance_child_eq_ok_iff.2 ⟨hd, hl, .inr ⟨node, hnode, hnot, hrest⟩⟩
    | _ =>
      obtain ⟨hd, hrest⟩ := (advance_nameless_eq_ok_iff (by simp)).1 h
      have hd := ((isDirectory_put_file tree hp content here.place).1 hd).2
      refine (ih hrest).imp_right fun hrest => ?_
      exact (advance_nameless_eq_ok_iff (by simp)).2 ⟨hd, hrest⟩

/-- A path that does not end at a new file leads where it led before. -/
theorem follow_put_file (hp : place ≠ []) {links : Nat} {here there : Standing} {steps : List Step}
    (h : (tree.put place (.file content)).follow .refuse links here steps = .ok there) :
    there.place = place ∨ tree.follow .refuse links here steps = .ok there := by
  induction links generalizing here steps there with
  | zero => exact advance_put_file hp (fun _ _ _ hn => by cases hn) h
  | succ links ih => exact advance_put_file hp (fun _ _ _ => ih) h

theorem onward_put_file (hp : place ≠ []) {here there : Standing} {steps : List Step}
    (h : (tree.put place (.file content)).onward here steps = .ok there) :
    there.place = place ∨ tree.onward here steps = .ok there :=
  follow_put_file hp h

/-- Steps are taken apart into those before a slash at the end, and the slash. -/
theorem body_append_closing (steps : List Step) :
    (if (steps.getLast? == some .closing) = true then steps.dropLast else steps) ++
      (bif steps.getLast? == some .closing then [.closing] else []) = steps := by
  cases hc : steps.getLast? == some Step.closing with
  | true =>
    obtain ⟨body, rfl⟩ := List.getLast?_eq_some_iff.1 (beq_iff_eq.1 hc)
    simp
  | false => simp

theorem slot_eq_ok {path name : String} {here : Standing} {closed : Bool}
    (h : tree.slot path = .ok ⟨here, some name, closed⟩) :
    ∃ route, FileTree.route path = .ok route ∧
      ∃ steps, route.steps = steps ++ .child name :: (bif closed then [.closing] else []) ∧
        tree.onward (tree.start route) steps = .ok here ∧
        tree.isDirectory here.place = true ∧ ¬ longestName < name.utf8ByteSize := by
  obtain ⟨route, hr, h⟩ := Except.bind_eq_ok_iff.1 h
  refine ⟨route, hr, ?_⟩
  have hsteps := body_append_closing route.steps
  dsimp only at h
  generalize (if (route.steps.getLast? == some .closing) = true then route.steps.dropLast
    else route.steps) = body at h hsteps
  split at h
  next => cases h
  next last hl =>
    obtain ⟨directory, ho, h⟩ := Except.bind_eq_ok_iff.1 h
    split at h
    next => cases h
    next hd =>
      split at h
      next other =>
        split at h
        next => cases h
        next hn =>
          obtain ⟨lead, hlead⟩ := List.getLast?_eq_some_iff.1 hl
          rw [hlead, List.dropLast_concat] at ho
          rw [hlead, List.append_assoc] at hsteps
          cases h
          exact ⟨lead, hsteps.symm, ho, by simpa using hd, hn⟩
      next => cases h

theorem slot_of_steps {path name : String} {lead : List Step} {here : Standing}
    (hr : FileTree.route path = .ok (Route.ofText path)) (hs : (Route.ofText path).steps = lead ++ [.child name])
    (ho : tree.onward (tree.start (Route.ofText path)) lead = .ok here) (hd : tree.isDirectory here.place = true)
    (hl : ¬ longestName < name.utf8ByteSize) : tree.slot path = .ok ⟨here, some name, false⟩ := by
  unfold slot
  rw [hr]
  simp [bind, Except.bind, hs, ho, hd, hl]

theorem slot_eq_ok_iff {path name : String} {here : Standing} : tree.slot path = .ok ⟨here, some name, false⟩ ↔
    FileTree.route path = .ok (Route.ofText path) ∧ ∃ lead, (Route.ofText path).steps = lead ++ [.child name] ∧
      tree.onward (tree.start (Route.ofText path)) lead = .ok here ∧ tree.isDirectory here.place = true ∧
      ¬ longestName < name.utf8ByteSize := by
  constructor
  · intro h
    obtain ⟨route, hr, lead, hs, ho, hd, hl⟩ := slot_eq_ok h
    cases route_eq_ok hr
    exact ⟨hr, lead, hs, ho, hd, hl⟩
  · rintro ⟨hr, lead, hs, ho, hd, hl⟩
    exact slot_of_steps hr hs ho hd hl

theorem onward_unlinked {name : String} {node : Node} {here there : Standing}
    (hn : tree.node? (name :: here.place) = some node) (hnot : ∀ target, node ≠ .link target)
    (h : tree.onward here [.child name] = .ok there) : there = here.child name := by
  obtain ⟨jump, hjump⟩ := onward_eq_advance tree here [.child name]
  rw [hjump] at h
  obtain ⟨_, _, ⟨target, hlink, _⟩ | ⟨_, _, _, hrest⟩⟩ := advance_child_eq_ok_iff.1 h
  · exact absurd (Option.some.inj (hn.symm.trans hlink)) (hnot target)
  · exact (Except.ok.inj hrest).symm

/-- Where a file was put at the end of a path the path leads to it, if it leads anywhere. -/
theorem resolve_put_file {path name : String} {here : Standing}
    (h : tree.slot path = .ok ⟨here, some name, false⟩)
    (hr : (tree.put (name :: here.place) (.file content)).resolve path = .ok place) :
    place = name :: here.place := by
  obtain ⟨route, hroute, steps, hsteps, ho, _⟩ := slot_eq_ok h
  have hp : name :: here.place ≠ [] := List.cons_ne_nil _ _
  obtain ⟨there, hreach, rfl⟩ := Except.map_eq_ok_iff.1 hr
  obtain ⟨other, he, honward⟩ := Except.bind_eq_ok_iff.1 hreach
  cases hroute.symm.trans he
  rw [hsteps, onward_append] at honward
  obtain ⟨middle, hmiddle, hlast⟩ := Except.bind_eq_ok_iff.1 honward
  have hstart : (tree.put (name :: here.place) (.file content)).start route = tree.start route := by
    rw [start, start, current_put]
  rw [hstart] at hmiddle
  rcases onward_put_file hp hmiddle with hm | hm
  · have hstop : ¬ (tree.put (name :: here.place) (.file content)).isDirectory middle.place = true := by
      rw [isDirectory_put_file tree hp]
      exact fun hd => hd.1 hm
    rw [onward_of_not_isDirectory hstop hlast]
    exact hm
  · cases hm.symm.trans ho
    rw [onward_unlinked (node?_put_self tree hp (.file content)) (by simp) hlast]
    rfl

/-- No path leads on through a place where there is neither a directory nor a link. -/
def Shut (tree : FileTree) (place : Location) : Prop :=
  tree.isDirectory place = false ∧ ∀ target, tree.node? place ≠ some (.link target)

theorem Shut.ne_nil (h : tree.Shut place) : place ≠ [] := by
  rintro rfl
  cases h.1

theorem advance_put_shut (hshut : tree.Shut place)
    {jump jump' : Standing → List Step → Except FileFault Standing}
    (hj : ∀ here steps there, jump here steps = .ok there → tree.isDirectory there.place = true →
      jump' here steps = .ok there)
    {here there : Standing} {steps : List Step} (h : tree.advance .refuse jump here steps = .ok there)
    (hend : tree.isDirectory there.place = true) :
    (tree.put place (.file content)).advance .refuse jump' here steps = .ok there := by
  have hne : ∀ other, tree.isDirectory other = true → other ≠ place := by
    rintro other hd rfl
    rw [hshut.1] at hd
    cases hd
  induction steps generalizing here with
  | nil => exact h
  | cons step rest ih =>
    cases step with
    | child name =>
      obtain ⟨hd, hl, hcases⟩ := advance_child_eq_ok_iff.1 h
      have hd' := (isDirectory_put_file tree hshut.ne_nil content here.place).2 ⟨hne _ hd, hd⟩
      by_cases hn : name :: here.place = place
      · -- the way would have ended at the place, which is no directory
        have hstop : ¬ tree.isDirectory (here.child name).place = true := fun hc => hne _ hc hn
        rcases hcases with ⟨target, hlink, _⟩ | ⟨node, _, _, hrest⟩
        · exact absurd (hn ▸ hlink) (hshut.2 target)
        · rw [advance_of_not_isDirectory hstop hrest] at hend
          exact absurd hend hstop
      · refine advance_child_eq_ok_iff.2 ⟨hd', hl, ?_⟩
        rw [node?_put_other tree hn]
        rcases hcases with ⟨target, hlink, hjump⟩ | ⟨node, hnode, hnot, hrest⟩
        · exact .inl ⟨target, hlink, hj _ _ _ hjump hend⟩
        · exact .inr ⟨node, hnode, hnot, ih hrest⟩
    | _ =>
      obtain ⟨hd, hrest⟩ := (advance_nameless_eq_ok_iff (by simp)).1 h
      have hd' := (isDirectory_put_file tree hshut.ne_nil content here.place).2 ⟨hne _ hd, hd⟩
      exact (advance_nameless_eq_ok_iff (by simp)).2 ⟨hd', ih hrest⟩

/-- A way to a directory is not blocked by a file at a place through which it cannot have led. -/
theorem onward_put_shut (hshut : tree.Shut place) {here there : Standing} {steps : List Step}
    (h : tree.onward here steps = .ok there) (hend : tree.isDirectory there.place = true) :
    (tree.put place (.file content)).onward here steps = .ok there := by
  unfold onward at h ⊢
  generalize here.links = links at h ⊢
  induction links generalizing here steps there with
  | zero => exact advance_put_shut hshut (fun _ _ _ hn => by cases hn) h hend
  | succ links ih => exact advance_put_shut hshut (fun _ _ _ hn hd => ih hd hn) h hend

theorem onward_child {name : String} {node : Node} {here : Standing}
    (hd : tree.isDirectory here.place = true) (hl : ¬ longestName < name.utf8ByteSize)
    (hn : tree.node? (name :: here.place) = some node) (hnot : ∀ target, node ≠ .link target) :
    tree.onward here [.child name] = .ok (here.child name) := by
  obtain ⟨jump, hjump⟩ := onward_eq_advance tree here [.child name]
  rw [hjump]
  exact advance_child_eq_ok_iff.2 ⟨hd, hl, .inr ⟨node, hn, hnot, rfl⟩⟩

/-- A path that leads to a directory up to its last name leads to the file of that name. -/
theorem resolve_of_onward {path name : String} {route : Route} {steps : List Step} {here : Standing}
    (hroute : FileTree.route path = .ok route) (hsteps : route.steps = steps ++ [.child name])
    (ho : tree.onward (tree.start route) steps = .ok here) (hd : tree.isDirectory here.place = true)
    (hl : ¬ longestName < name.utf8ByteSize)
    (hfile : tree.node? (name :: here.place) = some (.file content)) :
    tree.resolve path = .ok (name :: here.place) := by
  have hreach : tree.reach path = .ok (here.child name) := by
    rw [reach, hroute]
    change tree.onward (tree.start route) route.steps = _
    rw [hsteps, onward_append, ho]
    exact onward_child hd hl hfile (by simp)
  rw [resolve, hreach]
  rfl

theorem resolve_of_slot {path name : String} {here : Standing}
    (h : tree.slot path = .ok ⟨here, some name, false⟩)
    (hfile : tree.node? (name :: here.place) = some (.file content)) :
    tree.resolve path = .ok (name :: here.place) := by
  obtain ⟨route, hroute, steps, hsteps, ho, hd, hl⟩ := slot_eq_ok h
  exact resolve_of_onward hroute hsteps ho hd hl hfile

/-- Unless a link stood there, the path at which a file was put does lead to it. -/
theorem resolve_put_shut {path name : String} {here : Standing}
    (h : tree.slot path = .ok ⟨here, some name, false⟩) (hshut : tree.Shut (name :: here.place)) :
    (tree.put (name :: here.place) (.file content)).resolve path = .ok (name :: here.place) := by
  obtain ⟨route, hroute, steps, hsteps, ho, hd, hl⟩ := slot_eq_ok h
  have hfile := node?_put_self tree (List.cons_ne_nil name here.place) (.file content)
  have hd' : (tree.put (name :: here.place) (.file content)).isDirectory here.place = true :=
    (isDirectory_put_file tree (List.cons_ne_nil _ _) content here.place).2
      ⟨(List.cons_ne_self name here.place).symm, hd⟩
  have hstart : (tree.put (name :: here.place) (.file content)).start route = tree.start route := by
    rw [start, start, current_put]
  refine resolve_of_onward hroute hsteps ?_ hd' hl hfile
  rw [hstart]
  exact onward_put_shut hshut ho hd

/-- A path leads to a file that holds this, if it leads anywhere. -/
def Holds (tree : FileTree) (path : String) (content : Content) : Prop :=
  ∀ place, tree.resolve path = .ok place → tree.contentAt place = .ok content

theorem placeToReplace_eq_ok_iff {path : String} : tree.placeToReplace path = .ok place ↔
    ∃ here name, tree.slot path = .ok ⟨here, some name, false⟩ ∧ tree.isDirectory place = false ∧
      place = name :: here.place := by
  unfold placeToReplace
  split
  next hs => simp [hs]
  next fault _ hs => simp [hs]
  next hs => simp [hs]
  next here name closed hs =>
    cases closed with
    | true => simp [hs]
    | false =>
      rw [hs, if_neg Bool.false_ne_true]
      split
      next hd =>
        refine ⟨nofun, ?_⟩
        rintro ⟨_, _, he, hn, rfl⟩
        cases he
        cases hd.symm.trans hn
      next hd =>
        simp only [Except.ok.injEq]
        constructor
        · rintro rfl
          exact ⟨here, name, rfl, by simpa using hd, rfl⟩
        · rintro ⟨_, _, he, _, rfl⟩
          cases he
          rfl

theorem holds_of_put {path : String} (h : tree.placeToReplace path = .ok place) (content : Content) :
    (tree.put place (.file content)).Holds path content := by
  obtain ⟨here, name, hslot, _, rfl⟩ := placeToReplace_eq_ok_iff.1 h
  intro place hr
  cases resolve_put_file hslot hr
  rw [contentAt, node?_put_self tree (List.cons_ne_nil name here.place)]

/-- In trees of one shape a path leads to the same file. -/
theorem SameShape.readBytes {first second : FileTree} (same : first.SameShape second) {path : String}
    (h : first.Holds path content) (h' : second.Holds path content) :
    first.readBytes path = second.readBytes path := by
  unfold FileTree.readBytes
  rw [← same.resolve]
  cases hr : first.resolve path with
  | error fault => rfl
  | ok place =>
    have he : first.contentAt place = second.contentAt place :=
      (h place hr).trans (h' place (same.resolve path ▸ hr)).symm
    exact congrArg (fun content => content.bind Content.read) he

end FileTree

end SerialManifest

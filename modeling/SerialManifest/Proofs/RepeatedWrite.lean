import SerialManifest.Proofs.SupplementedWalk
import SerialManifest.Proofs.WholeFileWrite

namespace SerialManifest

theorem Path.innermost_eq {path innermost : String} {outer : List String}
    (h : Path.ancestors path = innermost :: outer) :
    innermost = Path.ofSteps (Path.segments path).1 (Path.steps path) ∧
      ∀ name others, Path.steps path = name :: others → Path.counts name = true := by
  have hcounts : ∀ name others, Path.steps path = name :: others → Path.counts name = true := by
    intro name others hs
    have hhead := List.head?_dropWhile_not (!Path.counts ·) (Path.segments path).2.reverse
    rw [show List.dropWhile _ _ = Path.steps path from rfl, hs] at hhead
    simpa using hhead
  refine ⟨?_, hcounts⟩
  unfold Path.ancestors at h
  split at h
  next => cases h
  next =>
    cases hs : Path.steps path with
    | nil =>
      rw [hs] at h
      cases h
      rfl
    | cons name others =>
      rw [hs, Path.ancestorsFrom, if_pos (hcounts name others hs)] at h
      exact (List.cons.inj h).1.symm

namespace FileTree

variable {outputs : Location → Prop} {tree before after : FileTree} {path name : String}
variable {here there : Standing} {lead steps : List Step} {place : Location}

section Allowing

variable {jump : Standing → List Step → Except FileFault Standing}

theorem follow_allow_concat {links : Nat} (h : here.links = links) :
    tree.follow .allow links here (lead ++ [.child name]) =
      (tree.follow .refuse links here lead).bind fun there => tree.follow .allow there.links there [.child name] := by
  induction links generalizing here lead with
  | zero =>
    refine advance_append (by simp) ?_ (fun _ _ _ => rfl) h
    intro there ht
    rw [ht]
    rfl
  | succ links ih =>
    refine advance_append (by simp) ?_ ?_ h
    · intro there ht
      rw [ht]
      rfl
    · exact fun there steps ht => ih ht

theorem advance_allow_child (h : tree.advance .allow jump here (.child name :: steps) = .ok there) :
    tree.isDirectory here.place = true ∧ ¬ longestName < name.utf8ByteSize ∧
      (steps = [] ∨ tree.advance .allow jump (here.child name) steps = .ok there ∨
        ∃ target, jump (here.link name (Route.ofText target)) ((Route.ofText target).steps ++ steps) = .ok there) := by
  unfold advance at h
  split at h
  next hd =>
    simp only at h
    split at h
    next => cases h
    next =>
      split at h
      next => cases h
      next hl =>
        refine ⟨hd, hl, ?_⟩
        split at h
        next =>
          split at h
          next hend => exact .inl hend.2
          next => cases h
        next target _ => exact .inr (.inr ⟨target, h⟩)
        next => exact .inr (.inl h)
  next => cases h

theorem WellFormed.isDirectory_of_advance (wellFormed : tree.WellFormed) {last : Step}
    (hlast : ∀ name, last ≠ .child name)
    (hj : ∀ here steps there, steps.getLast? = some last → jump here steps = .ok there →
      tree.isDirectory there.place = true)
    (hs : steps.getLast? = some last) (h : tree.advance .allow jump here steps = .ok there) :
    tree.isDirectory there.place = true := by
  induction steps generalizing here with
  | nil => cases hs
  | cons step rest ih =>
    cases hr : rest.getLast? with
    | none =>
      obtain rfl : step = last := by simpa [List.getLast?_cons, hr] using hs
      obtain rfl := List.getLast?_eq_none_iff.1 hr
      obtain ⟨hd, hstop⟩ := (advance_nameless_eq_ok_iff hlast).1 h
      cases hstop
      cases step with
      | up => exact wellFormed.isDirectory_tail hd
      | _ => exact hd
    | some other =>
      obtain rfl : other = last := by simpa [List.getLast?_cons, hr] using hs
      cases step with
      | child name =>
        obtain ⟨_, _, rfl | hrest | ⟨target, hjump⟩⟩ := advance_allow_child h
        · cases hr
        · exact ih hr hrest
        · exact hj _ _ _ (by rw [List.getLast?_append, hr]; rfl) hjump
      | _ => exact ih hr ((advance_nameless_eq_ok_iff (by simp)).1 h).2

theorem WellFormed.isDirectory_of_follow (wellFormed : tree.WellFormed) {last : Step} {links : Nat}
    (hlast : ∀ name, last ≠ .child name) (hs : steps.getLast? = some last)
    (h : tree.follow .allow links here steps = .ok there) : tree.isDirectory there.place = true := by
  induction links generalizing here steps there with
  | zero => exact wellFormed.isDirectory_of_advance hlast (fun _ _ _ _ hn => by cases hn) hs h
  | succ links ih => exact wellFormed.isDirectory_of_advance hlast (fun _ _ _ hs hn => ih hs hn) hs h

end Allowing

/-- Unless a link stands at it, a name leads to its place whether or not something stands there. -/
theorem follow_allow_child {links : Nat} (hnot : ∀ target, tree.node? (name :: here.place) ≠ some (.link target)) :
    tree.follow .allow links here [.child name] = .ok there ↔ tree.isDirectory here.place = true ∧
      ¬ longestName < name.utf8ByteSize ∧ there = here.child name := by
  obtain ⟨jump, hjump⟩ := follow_eq_advance tree .allow links here [.child name]
  rw [hjump, advance]
  by_cases hd : tree.isDirectory here.place = true
  · by_cases hl : longestName < name.utf8ByteSize
    · simp [hd, hl]
    · cases hn : tree.node? (name :: here.place) with
      | none => simp [hd, hl, eq_comm]
      | some node =>
        cases node with
        | link target => exact absurd hn (hnot target)
        | _ => simp [hd, hl, advance, eq_comm]
  · simp [hd]

theorem isDirectory_of_allow {links : Nat} (h : tree.follow .allow links here [.child name] = .ok there) :
    tree.isDirectory here.place = true ∧ ¬ longestName < name.utf8ByteSize := by
  obtain ⟨jump, hjump⟩ := follow_eq_advance tree .allow links here [.child name]
  rw [hjump] at h
  obtain ⟨hd, hl, _⟩ := advance_allow_child h
  exact ⟨hd, hl⟩

theorem resolveForWriting_eq_ok_iff : tree.resolveForWriting path = .ok place ↔
    FileTree.route path = .ok (Route.ofText path) ∧
      ∃ here, tree.follow .allow linkLimit (tree.start (Route.ofText path)) (Route.ofText path).steps = .ok here ∧
        tree.refusal? here.place = none ∧ place = here.place := by
  unfold resolveForWriting
  constructor
  · intro h
    obtain ⟨route, hr, h⟩ := Except.bind_eq_ok_iff.1 h
    cases route_eq_ok hr
    obtain ⟨here, hf, h⟩ := Except.bind_eq_ok_iff.1 h
    split at h
    next => cases h
    next hd =>
      cases h
      exact ⟨hr, here, hf, hd, rfl⟩
  · rintro ⟨hr, here, hf, hd, rfl⟩
    simp [hr, hf, hd, bind, Except.bind]

/-- A path that ends in a name asks for it where the steps before it lead, also when a file is to be written
there. -/
theorem follow_allow_start (hs : (Route.ofText path).steps = lead ++ [.child name]) :
    tree.follow .allow linkLimit (tree.start (Route.ofText path)) (Route.ofText path).steps =
      (tree.onward (tree.start (Route.ofText path)) lead).bind
        fun there => tree.follow .allow there.links there [.child name] := by
  have hlinks : (tree.start (Route.ofText path)).links = linkLimit := rfl
  rw [hs, follow_allow_concat hlinks]
  rfl

theorem not_isDirectory_of_refusal? (hw : tree.refusal? place = none) : ¬ tree.isDirectory place = true := by
  intro hd
  rw [refusal?, beq_iff_eq.1 hd] at hw
  cases hw

theorem exists_file_of_not (hd : ¬ tree.isDirectory place = true)
    (hnot : ∀ target, tree.node? place ≠ some (.link target)) {node : Node} (hn : tree.node? place = some node) :
    ∃ content, node = .file content := by
  cases node with
  | directory => exact absurd (beq_iff_eq.2 hn) hd
  | file content => exact ⟨content, rfl⟩
  | link target => exact absurd hn (hnot target)

theorem resolveForWriting_of_slot (h : tree.slot path = .ok ⟨here, some name, false⟩)
    (hnot : ∀ target, tree.node? (name :: here.place) ≠ some (.link target))
    (hw : tree.refusal? (name :: here.place) = none) :
    tree.resolveForWriting path = .ok (name :: here.place) := by
  obtain ⟨hr, lead, hs, ho, hd, hl⟩ := slot_eq_ok_iff.1 h
  refine resolveForWriting_eq_ok_iff.2 ⟨hr, here.child name, ?_, hw, rfl⟩
  rw [follow_allow_start hs, ho]
  exact (follow_allow_child hnot).2 ⟨hd, hl, rfl⟩

/-- A file is written where the last name of its path stands, unless a link stands there. -/
theorem WellFormed.names_of_resolveForWriting (wellFormed : tree.WellFormed)
    (h : tree.resolveForWriting path = .ok place) : ∃ here name, tree.slot path = .ok ⟨here, some name, false⟩ ∧
      ((∀ target, tree.node? (name :: here.place) ≠ some (.link target)) → place = name :: here.place) := by
  obtain ⟨hr, there, hf, hw, rfl⟩ := resolveForWriting_eq_ok_iff.1 h
  obtain ⟨_, _, hne, _⟩ := route_eq_ok_iff.1 hr
  obtain ⟨lead, last, hs⟩ : ∃ lead last, (Route.ofText path).steps = lead ++ [last] :=
    ⟨_, _, (List.dropLast_concat_getLast (Route.steps_ne_nil hne)).symm⟩
  by_cases hname : ∃ name, last = .child name
  · obtain ⟨name, rfl⟩ := hname
    rw [follow_allow_start hs] at hf
    obtain ⟨here, ho, hlast⟩ := Except.bind_eq_ok_iff.1 hf
    obtain ⟨hdir, hl⟩ := isDirectory_of_allow hlast
    refine ⟨here, name, slot_of_steps hr hs ho hdir hl, fun hnot => ?_⟩
    rw [((follow_allow_child hnot).1 hlast).2.2]
    rfl
  · have hlast : (Route.ofText path).steps.getLast? = some last := by rw [hs, List.getLast?_concat]
    exact absurd (wellFormed.isDirectory_of_follow (fun name he => hname ⟨name, he⟩) hlast hf)
      (not_isDirectory_of_refusal? hw)

/-- What a path names it names in a tree to which something has been added. -/
theorem Supplemented.slot (supplemented : Supplemented outputs before after) {slot : Slot}
    (h : before.slot path = .ok slot) : after.slot path = .ok slot := by
  unfold FileTree.slot at h ⊢
  obtain ⟨route, hr, h⟩ := Except.bind_eq_ok_iff.1 h
  rw [hr]
  dsimp only [bind, Except.bind] at h ⊢
  rw [start_of_current supplemented.current]
  split at h
  next => exact h
  next last _ =>
    cases ho : before.onward (before.start route) (if (route.steps.getLast? == some .closing) = true then
        route.steps.dropLast else route.steps).dropLast with
    | error fault =>
      rw [ho] at h
      cases h
    | ok directory =>
      rw [ho] at h
      rw [supplemented.keeps.onward ho]
      dsimp only at h ⊢
      split at h
      next => cases h
      next hd =>
        have hd : before.isDirectory directory.place = true := by simpa using hd
        rwa [supplemented.keeps.isDirectory hd, if_neg (by simp)]

theorem placeToReplace_of_slot (h : tree.slot path = .ok ⟨here, some name, false⟩)
    (hd : ¬ tree.isDirectory (name :: here.place) = true) : tree.placeToReplace path = .ok (name :: here.place) :=
  placeToReplace_eq_ok_iff.2 ⟨here, name, h, by simpa using hd, rfl⟩

theorem Supplemented.placeToCreate (supplemented : Supplemented outputs before after)
    (h : before.placeToCreate path = .ok place) : after.placeToCreate path = .ok place := by
  unfold FileTree.placeToCreate at h ⊢
  cases hs : before.slot path with
  | error fault =>
    rw [hs] at h
    cases h
  | ok slot =>
    rw [hs] at h
    rwa [supplemented.slot hs]

/-- The same temporary file is created again if nothing is new but what comes to stand at the path. -/
theorem Supplemented.temporaryPlace (supplemented : Supplemented outputs before after) {directory : String}
    {final temporary : Location} {left draw : Nat} (hb : before.placeToReplace path = .ok final)
    (ha : after.placeToReplace path = .ok final)
    (hold : ∀ other, other ≠ final → (after.node? other).isSome = (before.node? other).isSome)
    (h : before.temporaryPlace directory path left draw = .ok temporary) :
    after.temporaryPlace directory path left draw = .ok temporary := by
  induction left generalizing draw with
  | zero =>
    rw [FileTree.temporaryPlace] at h
    cases h
  | succ left ih =>
    rw [FileTree.temporaryPlace] at h ⊢
    obtain ⟨first, hfirst, h⟩ := Except.bind_eq_ok_iff.1 h
    rw [supplemented.placeToCreate hfirst]
    change (if (after.node? first).isSome || (after.placeToReplace path).toOption == some first then
      after.temporaryPlace directory path left (draw + 1) else .ok first) = .ok temporary
    have hsame : ((after.node? first).isSome || (after.placeToReplace path).toOption == some first) =
        ((before.node? first).isSome || (before.placeToReplace path).toOption == some first) := by
      rw [ha, hb]
      by_cases hf : first = final
      · simp [hf, Except.toOption]
      · rw [hold first hf]
    rw [hsame]
    split at h
    next htaken => rw [if_pos htaken, ih h]
    next hfree => rw [if_neg hfree, h]

/-- A file that was written as a whole is written again in the same place. -/
theorem Supplemented.wholePlace (supplemented : Supplemented outputs before after) {directory : String}
    {data : List UInt8} (hdisk : after.disk = before.disk) (ha : after.placeToReplace path = .ok place)
    (hold : ∀ other, other ≠ place → (after.node? other).isSome = (before.node? other).isSome)
    (h : before.wholePlace directory path data = .ok place) : after.wholePlace directory path data = .ok place := by
  obtain ⟨hb, temporary, ht, hf⟩ := wholePlace_eq_ok_iff.1 h
  refine wholePlace_eq_ok_iff.2 ⟨ha, temporary, ?_, ?_⟩
  · rw [supplemented.current]
    exact supplemented.temporaryPlace hb ha hold ht
  · rwa [temporaryFault?, hdisk]

section Creating

variable {outer : List String}

theorem exists_slot_of_reach (h : tree.reach path = .ok here) : ∃ slot, tree.slot path = .ok slot ∧
    ∀ name, slot.name = some name → (tree.node? (name :: slot.directory.place)).isSome = true := by
  obtain ⟨route, hr, ho⟩ := Except.bind_eq_ok_iff.1 h
  cases route_eq_ok hr
  unfold slot
  rw [hr]
  dsimp only [bind, Except.bind]
  have hs := body_append_closing (Route.ofText path).steps
  generalize (if ((Route.ofText path).steps.getLast? == some Step.closing) = true then
    (Route.ofText path).steps.dropLast else (Route.ofText path).steps) = body at hs ⊢
  cases hlast : body.getLast? with
  | none => exact ⟨_, rfl, nofun⟩
  | some last =>
    obtain ⟨lead, rfl⟩ := List.getLast?_eq_some_iff.1 hlast
    rw [← hs, List.append_assoc, onward_append] at ho
    obtain ⟨middle, hmiddle, hrest⟩ := Except.bind_eq_ok_iff.1 ho
    obtain ⟨jump, hjump⟩ := onward_eq_advance tree middle ([last] ++ _)
    rw [hjump, List.singleton_append] at hrest
    rw [List.dropLast_concat, hmiddle]
    cases last with
    | child name =>
      obtain ⟨hd, hl, hcases⟩ := advance_child_eq_ok_iff.1 hrest
      simp only [hd, hl, Bool.not_true, Bool.false_eq_true, ↓reduceIte]
      refine ⟨_, rfl, ?_⟩
      rintro other he
      cases he
      rcases hcases with ⟨target, hn, _⟩ | ⟨node, hn, _⟩
      · rw [hn]; rfl
      · rw [hn]; rfl
    | _ =>
      obtain ⟨hd, _⟩ := (advance_nameless_eq_ok_iff (by simp)).1 hrest
      simp only [hd, Bool.not_true, Bool.false_eq_true, ↓reduceIte]
      exact ⟨_, rfl, nofun⟩

theorem createDirectory_of_reach (h : tree.reach path = .ok here) :
    (createDirectory path).run.run tree = (.error .alreadyExists, tree) := by
  obtain ⟨⟨directory, name, closed⟩, hslot, hstands⟩ := exists_slot_of_reach h
  unfold createDirectory
  rw [run_get_bind, hslot]
  cases name with
  | none => rfl
  | some name =>
    have hs := hstands name rfl
    simp only
    unfold createChild
    rw [run_get_bind, if_pos hs]
    rfl

theorem createAll_of_reach (h : tree.reach path = .ok here) (hd : tree.isDirectory here.place = true) :
    (createAll (path :: outer)).run.run tree = (.ok here, tree) := by
  have hexcuse : (excuse path .alreadyExists).run.run tree = (.ok here, tree) := by
    unfold excuse
    rw [run_get_bind, h]
    simp only [hd, ↓reduceIte]
    rfl
  rw [createAll, Matches.run_tryCatch, createDirectory_of_reach h]
  exact hexcuse

/-- A path at which a directory has been created can be looked up. -/
theorem route_of_createAll (hne : path ≠ "") (h : (createAll (path :: outer)).run.run before = (.ok here, after)) :
    FileTree.route path = .ok (Route.ofText path) := by
  cases hr : FileTree.route path with
  | ok route => rw [route_eq_ok hr]
  | error fault =>
    have hslot : before.slot path = .error fault := by
      rw [slot, hr]
      rfl
    have hreach : before.reach path = .error fault := by
      rw [FileTree.reach, hr]
      rfl
    have hcreate : (createDirectory path).run.run before = (.error fault, before) := by
      unfold createDirectory
      rw [run_get_bind, hslot]
      rfl
    have hexcuse : (excuse path fault).run.run before = (.error fault, before) := by
      unfold excuse
      rw [run_get_bind, hreach]
      rfl
    have hfault : fault ≠ .notFound := by
      rintro rfl
      unfold FileTree.route at hr
      split at hr
      next => cases hr
      next =>
        split at hr
        next => cases hr
        next => simp [hne] at hr
    rw [createAll, Matches.run_tryCatch, hcreate] at h
    simp only [hfault, ↓reduceIte] at h
    rw [hexcuse] at h
    cases h

/-- A directory, with whatever there is to be created for it, is in place. -/
def HasDirectories (tree : FileTree) (path : String) : Prop :=
  ∀ innermost outer, Path.ancestors path = innermost :: outer →
    ∃ here, tree.reach innermost = .ok here ∧ tree.isDirectory here.place = true

theorem HasDirectories.createDirectories (h : tree.HasDirectories path) :
    (createDirectories path).run.run tree = (.ok (), tree) := by
  have hall : ∃ here, (createAll (Path.ancestors path)).run.run tree = (.ok here, tree) := by
    cases ha : Path.ancestors path with
    | nil => exact ⟨_, rfl⟩
    | cons innermost outer =>
      obtain ⟨here, hr, hd⟩ := h innermost outer ha
      exact ⟨here, createAll_of_reach hr hd⟩
  obtain ⟨here, hall⟩ := hall
  unfold FileTree.createDirectories
  rw [run_bind_of_ok hall]
  rfl

theorem hasDirectories_of_createDirectories
    (h : (createDirectories path).run.run before = (.ok (), after)) : after.HasDirectories path := by
  intro innermost outer ha
  obtain ⟨here, middle, hall, hpure⟩ := run_bind_eq_ok_iff.1 h
  cases hpure
  obtain ⟨hi, hcounts⟩ := Path.innermost_eq ha
  have hp : path ≠ "" := by
    rintro rfl
    cases ha
  have hplain := Path.plain_steps path
  have arrives := createAll_arrives before hplain
  rw [show Path.ancestorsFrom (Path.segments path).1 (Path.steps path) = innermost :: outer by
    rw [← ha, Path.ancestors, if_neg (by simpa using hp)]] at arrives
  rw [ha] at hall
  rw [hall] at arrives
  obtain ⟨ho, hd⟩ := arrives.arrived here rfl
  refine ⟨here, ?_, hd⟩
  by_cases hroot : (Path.segments path).1 = [] ∧ Path.steps path = []
  · rw [hroot.1, hroot.2] at hi ho
    have he := (onward_nil after _).symm.trans ho
    cases he
    exact hi ▸ reach_root after
  · have hne : innermost ≠ "" := hi ▸ Path.ofSteps_ne_empty hplain hroot
    have hroute := route_of_createAll hne hall
    have hsteps := Path.ofText_ofSteps hplain hroot hcounts
    rw [← hi] at hsteps
    rw [reach_eq hroute, hsteps]
    rw [start_of_current arrives.grown.current]
    exact ho

theorem HasDirectories.supplemented (h : before.HasDirectories path)
    (supplemented : Supplemented outputs before after) : after.HasDirectories path := by
  intro innermost outer he
  obtain ⟨here, hr, hd⟩ := h innermost outer he
  exact ⟨here, supplemented.reach hr, supplemented.keeps.isDirectory hd⟩

end Creating

end FileTree

end SerialManifest

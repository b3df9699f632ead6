import SerialManifest.Proofs.SupplementedTree

namespace SerialManifest

namespace Walk

theorem each_congr {walk walk' : String → Walk} {names : List String}
    (h : ∀ name ∈ names, walk name = walk' name) : each walk names = each walk' names := by
  induction names with
  | nil => rfl
  | cons name names ih =>
    have hothers := ih fun other ho => h other (List.mem_cons_of_mem name ho)
    simp only [each, h name List.mem_cons_self, hothers]

theorem each_filter {walk : String → Walk} (p : String → Bool) {names : List String}
    (h : ∀ name ∈ names, p name = false → walk name = of []) :
    each walk names = each walk (names.filter p) := by
  induction names with
  | nil => rfl
  | cons name names ih =>
    have hothers := ih fun other ho => h other (List.mem_cons_of_mem name ho)
    by_cases hp : p name = true
    · rw [List.filter_cons_of_pos hp]
      simp only [each, hothers]
    · have hempty := h name List.mem_cons_self (by simpa using hp)
      rw [List.filter_cons_of_neg hp, ← hothers, each_cons_of_success (by rw [hempty]; rfl), hempty]
      rfl

end Walk

namespace Path

theorem down_append (root : String) (tail names : List String) :
    down root (tail ++ names) = down (down root names) tail := by
  induction tail with
  | nil => rfl
  | cons name tail ih => rw [List.cons_append, down, ih, down]

theorem join_ne_empty {path : String} (hp : path ≠ "") (name : String) : join path name ≠ "" := by
  unfold join
  split
  next h =>
    have habsolute : isAbsolute name = true := by simpa [hp] using h
    rintro rfl
    cases habsolute
  next =>
    split <;> simp [hp]

end Path

namespace FileTree

/-- What a directory has shown before it shows in the same order as before. -/
def KeepsOrder (before after : FileTree) : Prop :=
  ∀ place, (after.children place).filter (fun name => (before.node? (name :: place)).isSome) =
    before.children place

def nameIn? (place : Location) : Location → Option String
  | [] => none
  | name :: outer => if outer = place then some name else none

theorem nameIn?_eq_some_iff {place other : Location} {name : String} :
    nameIn? place other = some name ↔ other = name :: place := by
  cases other <;> simp [nameIn?, and_comm]

theorem children_eq (tree : FileTree) (place : Location) :
    tree.children place = (tree.entries.map Entry.place).filterMap (nameIn? place) := by
  rw [children, List.filterMap_map]
  refine List.filterMap_congr fun entry _ => Option.ext fun name => ?_
  rw [Entry.childName?_eq_some_iff]
  exact nameIn?_eq_some_iff.symm

theorem keepsOrder_of_places {before after : FileTree}
    (h : (after.entries.map Entry.place).filter (fun place => (before.node? place).isSome) =
      before.entries.map Entry.place) : before.KeepsOrder after := by
  intro place
  rw [children_eq, children_eq, ← h, List.filter_filterMap, List.filterMap_filter]
  refine List.filterMap_congr fun other _ => ?_
  cases hn : nameIn? place other with
  | none => split <;> rfl
  | some name =>
    rw [nameIn?_eq_some_iff.1 hn]
    rfl

/-- Below a path that leads to a place no path is too long to be looked up, and neither is the full path of a
directory. -/
def FitsBelow (tree : FileTree) (path : String) (place : Location) : Prop :=
  ∀ tail node, tree.node? (tail ++ place) = some node →
    (Path.down path tail).utf8ByteSize ≤ longestPath ∧
      (node = .directory → fullLength (tail ++ place) ≤ longestPath)

/-- No path is too long that leads from a root to something new. -/
def NewFits (before after : FileTree) (root : String) : Prop :=
  ∀ names above name, before.LeadsDown root names above → before.isDirectory above = true →
    before.node? (name :: above) = none → after.FitsBelow (Path.down root (name :: names)) (name :: above)

variable {outputs : Location → Prop} {tree before after : FileTree} {root path : String}
variable {names : List String} {reached : Except FileFault Standing} {here there : Standing}
variable {entered : List Entry} {place : Location}

theorem WellFormed.isDirectory_outer (wellFormed : tree.WellFormed) {name : String} {node : Node}
    (h : tree.node? (name :: place) = some node) : tree.isDirectory place = true := by
  obtain ⟨entry, hm, hp, _⟩ := (node?_eq_some_iff (List.cons_ne_nil name place)).1 h
  have hd := wellFormed.parents entry hm
  rwa [hp] at hd

theorem WellFormed.node?_append (wellFormed : tree.WellFormed) (h : tree.node? place = none)
    (tail : List String) : tree.node? (tail ++ place) = none := by
  induction tail with
  | nil => exact h
  | cons name tail ih =>
    cases hn : tree.node? (name :: (tail ++ place)) with
    | none => exact hn
    | some node =>
      have hd := wellFormed.isDirectory_outer hn
      rw [isDirectory, ih] at hd
      cases hd

theorem exists_reached (h : tree.complaint path reached entered = none) : ∃ here, reached = .ok here := by
  cases reached with
  | ok here => exact ⟨here, rfl⟩
  | error fault => cases fault <;> cases h

theorem FitsBelow.child (fits : tree.FitsBelow path place) (name : String) :
    tree.FitsBelow (Path.join path name) (name :: place) := by
  intro tail node hn
  have hfits := fits (tail ++ [name]) node
  rw [Path.down_append, List.append_assoc] at hfits
  exact hfits hn

/-- Where a walk comes to something new. -/
structure ComesNew (before after : FileTree) (path : String) (there : Standing) (entered : List Entry) :
    Prop where
  fresh : before.node? there.place = none
  stands : (after.node? there.place).isSome = true
  called : ∀ content, after.node? there.place = some (.file content) → Path.isInput path = false
  nonempty : path ≠ ""
  entered : ∀ entry ∈ entered, (before.node? entry.place).isSome = true ∨
    entry.place.length < there.place.length

/-- Where a walk comes to something new by a path that can be looked up, as can all paths further down. -/
structure ArrivesNew (before after : FileTree) (path : String) (there : Standing) (entered : List Entry) :
    Prop extends ComesNew before after path there entered where
  fits : after.FitsBelow path there.place
  spelt : after.isDirectory there.place = true → there.spelt = true

namespace ComesNew

variable (comes : ComesNew before after path there entered)
include comes

theorem not_anyAt : ¬ Entry.anyAt entered there.place = true := by
  intro h
  obtain ⟨entry, hm, hp⟩ := List.mem_map.1 (Entry.anyAt_iff.1 h)
  rcases comes.entered entry hm with hs | hl
  · rw [hp, comes.fresh] at hs
    cases hs
  · rw [hp] at hl
    exact absurd hl (Nat.lt_irrefl _)

/-- Further down everything is new as well, and the walk is in directories that are not as deep. -/
theorem entered_child : ∀ entry ∈ Entry.of there.place .directory :: entered,
    (before.node? entry.place).isSome = true ∨ entry.place.length < there.place.length + 1 := by
  intro entry hm
  rcases List.mem_cons.1 hm with rfl | hm
  · exact .inr (Nat.lt_succ_self _)
  · exact (comes.entered entry hm).imp_right Nat.lt_succ_of_lt

end ComesNew

/-- In a directory that stood before a walk is in directories that stood before. -/
theorem stands_of_chain {chain : List (List String)} (h : before.Chain root chain entered) (place : Location) :
    ∀ entry ∈ entered, (before.node? entry.place).isSome = true ∨ entry.place.length < place.length + 1 := by
  intro entry hm
  left
  rw [beq_iff_eq.1 (h.isDirectory entry hm)]
  rfl

section Supplemented

variable (wellFormed : before.WellFormed) (supplemented : Supplemented outputs before after)
variable (apart : before.Apart outputs)

include supplemented

theorem Supplemented.unlinked {node : Node} (hb : before.node? place = none)
    (ha : after.node? place = some node) (target : String) : node ≠ .link target := by
  rcases supplemented.eq_directory_or_output hb ha with rfl | ⟨_, _, rfl⟩ <;> simp

include wellFormed in
theorem Supplemented.isDirectory_outer {name : String} {node : Node}
    (h : after.node? (name :: place) = some node) : after.isDirectory place = true := by
  cases hb : before.node? (name :: place) with
  | some stood => exact supplemented.keeps.isDirectory (wellFormed.isDirectory_outer hb)
  | none => exact (supplemented.placesNew _ hb (by rw [h]; rfl)).1

include wellFormed in
theorem Supplemented.not_isDirectory_of_comesTo (comes : before.ComesTo root names (.ok here) entered)
    (hd : ¬ before.isDirectory here.place = true) : ¬ after.isDirectory here.place = true := by
  have hstands := wellFormed.stands_of_reach (wellFormed.reach_of_comesTo comes)
  obtain ⟨content, hn⟩ := hstands.resolve_left hd
  exact supplemented.not_isDirectory hn hd

theorem Supplemented.isInput_of_comesNew (comes : ComesNew before after path there entered)
    (hd : ¬ after.isDirectory there.place = true) : Path.isInput path = false := by
  obtain ⟨node, ha⟩ := Option.isSome_iff_exists.1 comes.stands
  rcases supplemented.eq_directory_or_output comes.fresh ha with rfl | ⟨_, content, rfl⟩
  · exact absurd (beq_iff_eq.2 ha) hd
  · exact comes.called content ha

include apart

theorem Supplemented.walkArchive (ha : Archive.isArchiveName path = true)
    (h : (before.walkArchive path).failure = none) : after.walkArchive path = before.walkArchive path := by
  have hi : Path.isInput path = true := by rw [Path.isInput, ha, Bool.or_true]
  unfold FileTree.walkArchive at h ⊢
  cases hopen : before.openArchive path with
  | error error =>
    rw [hopen] at h
    cases h
  | ok archive => rw [supplemented.openArchive apart hi hopen]

theorem Supplemented.isInput_join {name : String} {content : Content} (hp : path ≠ "")
    (hb : before.node? (name :: place) = none) (ha : after.node? (name :: place) = some (.file content)) :
    Path.isInput (Path.join path name) = false := by
  obtain ⟨ho, _⟩ := (supplemented.eq_directory_or_output hb ha).resolve_left (by simp)
  obtain ⟨out, outer, hplace, proper, hout⟩ := apart.named _ ho
  cases hplace
  obtain ⟨lead, hjoin⟩ := Path.exists_join_eq proper hp
  rw [Path.isInput_of_append hjoin, String.ofList_toList, hout]

/-- From a directory a walk comes to what is new in it. -/
theorem Supplemented.comesNew {name : String} (hp : path ≠ "") (hb : before.node? (name :: here.place) = none)
    (hm : name ∈ after.children here.place)
    (hentered : ∀ entry ∈ entered, (before.node? entry.place).isSome = true ∨
      entry.place.length < here.place.length + 1) :
    ComesNew before after (Path.join path name) (here.child name) entered where
  fresh := hb
  stands := mem_children_iff.1 hm
  called _ hfile := supplemented.isInput_join apart hp hb hfile
  nonempty := Path.join_ne_empty hp name
  entered := hentered

omit apart in
/-- Only by a path that is too long a walk does not come to what is new. -/
theorem Supplemented.reachChild_new {name : String} (hb : before.node? (name :: here.place) = none)
    (hm : name ∈ after.children here.place) (hd : after.isDirectory here.place = true) :
    after.reachChild here path name =
      if longestPath < path.utf8ByteSize then .error .nameTooLong else .ok (here.child name) := by
  have hstands := mem_children_iff.1 hm
  obtain ⟨node, ha⟩ := Option.isSome_iff_exists.1 hstands
  have hname := (supplemented.placesNew _ hb hstands).2 name rfl
  rw [FileTree.reachChild, onward_child hd hname ha (supplemented.unlinked hb ha)]

theorem Supplemented.arrivesNew {name : String} (hp : path ≠ "") (hspelt : here.spelt = true)
    (hb : before.node? (name :: here.place) = none) (hm : name ∈ after.children here.place)
    (fits : after.FitsBelow (Path.join path name) (name :: here.place))
    (hentered : ∀ entry ∈ entered, (before.node? entry.place).isSome = true ∨
      entry.place.length < here.place.length + 1) (hd : after.isDirectory here.place = true) :
    after.reachChild here (Path.join path name) name = .ok (here.child name) ∧
      ArrivesNew before after (Path.join path name) (here.child name) entered := by
  obtain ⟨node, ha⟩ := Option.isSome_iff_exists.1 (mem_children_iff.1 hm)
  have hlong : (Path.join path name).utf8ByteSize ≤ longestPath := (fits [] node ha).1
  refine ⟨?_, supplemented.comesNew apart hp hb hm hentered, fits, fun hdir => ?_⟩
  · rw [supplemented.reachChild_new hb hm hd, if_neg (Nat.not_lt.2 hlong)]
  · have hfull : fullLength (name :: here.place) ≤ longestPath := (fits [] .directory (beq_iff_eq.1 hdir)).2 rfl
    simp [Standing.child, hspelt, hfull]

include wellFormed

/-- A walk that comes to something new finds nothing there. -/
theorem Supplemented.walkFrom_new (arrives : ArrivesNew before after path there entered) :
    after.walkFrom root path (.ok there) entered = .of [] := by
  generalize hreached : Except.ok there = reached
  induction path, reached, entered using walkFrom.induct after root generalizing there with
  | case1 => cases hreached
  | case2 _ _ _ _ => cases hreached
  | case3 path entered here hd hs =>
    cases hreached
    rw [arrives.spelt hd] at hs
    cases hs
  | case4 path entered here hd hs hc =>
    cases hreached
    exact absurd hc arrives.not_anyAt
  | case5 path entered here hd hs hc ih =>
    cases hreached
    have hempty : ∀ name ∈ after.children here.place, false = false →
        after.walkChild root path here entered name = .of [] := by
      intro name hm _
      have hb : before.node? (name :: here.place) = none := wellFormed.node?_append arrives.fresh [name]
      obtain ⟨hreach, below⟩ := supplemented.arrivesNew apart arrives.nonempty (by simpa using hs) hb hm
        (arrives.fits.child name) arrives.entered_child hd
      exact ih name below hreach.symm
    rw [walkFrom_of_directory hd (by simpa using hs) hc, Walk.each_filter (fun _ => false) hempty]
    simp
  | case6 path entered here hd ha =>
    cases hreached
    have hi := supplemented.isInput_of_comesNew arrives.toComesNew hd
    rw [Path.isInput, ha, Bool.or_true] at hi
    cases hi
  | case7 path entered here hd ha =>
    cases hreached
    have hi := supplemented.isInput_of_comesNew arrives.toComesNew hd
    rw [walkFrom_of_file hd ha, walkFile, if_neg]
    intro hn
    rw [Path.isInput, hn] at hi
    cases hi

variable (order : KeepsOrder before after)
include order

/-- In a directory that a walk opens what is new does not count. -/
theorem Supplemented.each_children (fits : NewFits before after root)
    (comes : before.ComesTo root names (.ok here) entered) (opens : before.Opens here entered) :
    Walk.each (after.walkChild root (Path.down root names) here entered) (after.children here.place) =
      Walk.each (after.walkChild root (Path.down root names) here entered) (before.children here.place) := by
  have way := wellFormed.leadsDown_of_comesTo comes rfl
  have chain := wellFormed.chain_of_opens comes opens (wellFormed.chain_of_comesTo comes)
  have hne := Path.down_ne_empty way.ne_empty (way.proper wellFormed)
  have hempty : ∀ name ∈ after.children here.place, (before.node? (name :: here.place)).isSome = false →
      after.walkChild root (Path.down root names) here entered name = .of [] := by
    intro name hm hb
    have hb : before.node? (name :: here.place) = none := by simpa using hb
    have hentered := stands_of_chain chain here.place
    obtain ⟨hreach, arrives⟩ := supplemented.arrivesNew apart hne opens.spelt hb hm
      (fits names here.place name way opens.directory hb) hentered (supplemented.keeps.isDirectory opens.directory)
    rw [walkChild, hreach]
    exact supplemented.walkFrom_new wellFormed apart arrives
  rw [Walk.each_filter _ hempty, order here.place]

/-- Where a walk succeeded it finds what it found, if all paths to what is new can be looked up. -/
theorem Supplemented.walkFrom (h : (before.walk root).failure = none) (fits : NewFits before after root)
    (comes : before.ComesTo root names reached entered) :
    after.walkFrom root (Path.down root names) reached entered =
      before.walkFrom root (Path.down root names) reached entered := by
  refine ComesTo.induction_of_success h ?directory ?archive ?file comes
  case directory =>
    intro names here entered comes opens ih
    have hd := supplemented.keeps.isDirectory opens.directory
    rw [opens.walkFrom, walkFrom_of_directory hd opens.spelt opens.fresh,
      supplemented.each_children wellFormed apart order fits comes opens]
    refine Walk.each_congr fun name hm => ?_
    have below := comes.child opens hm
    obtain ⟨there, hreach⟩ := exists_reached (complaint_of_success (below.success h))
    have hsame : after.reachChild here (Path.join (Path.down root names) name) name =
        before.reachChild here (Path.join (Path.down root names) name) name :=
      (supplemented.reachChild hreach).trans hreach.symm
    rw [walkChild, walkChild, hsame]
    exact ih name hm
  case archive =>
    intro names here entered comes hd ha hsuccess
    have hd' := supplemented.not_isDirectory_of_comesTo wellFormed comes hd
    rw [walkFrom_of_archive hd ha, walkFrom_of_archive hd' ha]
    exact supplemented.walkArchive apart ha hsuccess
  case file =>
    intro names here entered comes hd ha
    have hd' := supplemented.not_isDirectory_of_comesTo wellFormed comes hd
    rw [walkFrom_of_file hd ha, walkFrom_of_file hd' ha]

end Supplemented

section Success

/-- A walk that succeeds goes on from a directory to what stands in it. -/
theorem ComesTo.descend {name : String} {node : Node} (comes : tree.ComesTo root names (.ok here) entered)
    (h : (tree.walk root).failure = none) (hd : tree.isDirectory here.place = true)
    (hn : tree.node? (name :: here.place) = some node) (hnot : ∀ target, node ≠ .link target) :
    tree.ComesTo root (name :: names) (.ok (here.child name)) (.of here.place .directory :: entered) ∧
      (Path.down root (name :: names)).utf8ByteSize ≤ longestPath := by
  have opens := opens_of_complaint hd (complaint_of_success (comes.success h))
  have below := comes.child opens (mem_children_iff.2 (by rw [hn]; rfl))
  obtain ⟨there, hreach⟩ := exists_reached (complaint_of_success (below.success h))
  rw [hreach] at below
  unfold reachChild at hreach
  split at hreach
  next => cases hreach
  next hl =>
    rw [onward_unlinked hn hnot hreach] at below
    exact ⟨below, Nat.not_lt.1 hl⟩

variable (supplemented : Supplemented outputs before after)
include supplemented

/-- A walk comes to everything again to which it came before. -/
theorem Supplemented.comesTo (comes : before.ComesTo root names reached entered) (h : reached = .ok here) :
    after.ComesTo root names (.ok here) entered := by
  induction comes generalizing here with
  | root =>
    rw [← supplemented.reach h]
    exact .root
  | @child outer above entered name comes opens shown ih =>
    rw [← supplemented.reachChild h]
    refine .child (ih rfl) ⟨supplemented.keeps.isDirectory opens.directory, opens.spelt, opens.fresh⟩ ?_
    obtain ⟨node, hn⟩ := Option.isSome_iff_exists.1 (mem_children_iff.1 shown)
    rw [mem_children_iff]
    rcases supplemented.keeps _ _ hn with hn' | ⟨_, _, _, hn'⟩
    · rw [hn']; rfl
    · rw [hn']; rfl

variable (wellFormed : before.WellFormed) (h : (after.walk root).failure = none)
include wellFormed h

theorem Supplemented.comesTo_directory (comes : after.ComesTo root names (.ok here) entered)
    {tail : List String} (hd : after.isDirectory (tail ++ here.place) = true) :
    ∃ there entered, after.ComesTo root (tail ++ names) (.ok there) entered ∧
      there.place = tail ++ here.place := by
  induction tail with
  | nil => exact ⟨here, entered, comes, rfl⟩
  | cons name tail ih =>
    have hn : after.node? (name :: (tail ++ here.place)) = some .directory := beq_iff_eq.1 hd
    have houter := supplemented.isDirectory_outer wellFormed hn
    obtain ⟨there, entered', comes', hplace⟩ := ih houter
    rw [← hplace] at houter hn
    refine ⟨_, _, (comes'.descend h houter hn (by simp)).1, ?_⟩
    rw [Standing.child, hplace]
    rfl

/-- A walk that succeeds looks up the paths to all that stands below a directory. -/
theorem Supplemented.fits_of_success (comes : after.ComesTo root names (.ok here) entered) {name : String}
    {tail : List String} {node : Node} (hn : after.node? (name :: (tail ++ here.place)) = some node)
    (hnot : ∀ target, node ≠ .link target) :
    (Path.down root (name :: (tail ++ names))).utf8ByteSize ≤ longestPath ∧
      (node = .directory → fullLength (name :: (tail ++ here.place)) ≤ longestPath) := by
  have houter := supplemented.isDirectory_outer wellFormed hn
  obtain ⟨there, entered', comes', hplace⟩ := supplemented.comesTo_directory wellFormed h comes houter
  rw [← hplace] at hn houter ⊢
  obtain ⟨below, hlong⟩ := comes'.descend h houter hn hnot
  refine ⟨hlong, ?_⟩
  rintro rfl
  have opens := opens_of_complaint (beq_iff_eq.2 hn) (complaint_of_success (below.success h))
  have hspelt := opens.spelt
  simp only [Standing.child, Bool.and_eq_true, decide_eq_true_eq] at hspelt
  exact hspelt.2

/-- If a walk succeeds again, all paths to what is new can be looked up. -/
theorem Supplemented.newFits (hbefore : (before.walk root).failure = none) : NewFits before after root := by
  intro names above name way hd hb tail node ha
  obtain ⟨here, entered, comes, rfl⟩ := wellFormed.comesTo_of_leadsDown hbefore way
  have comes' := supplemented.comesTo comes rfl
  have hnot := supplemented.unlinked (wellFormed.node?_append hb tail) ha
  obtain ⟨last, rest, hrest⟩ : ∃ last rest, ∀ outer, tail ++ name :: outer = last :: (rest ++ outer) := by
    cases tail with
    | nil => exact ⟨name, [], fun _ => rfl⟩
    | cons last tail => exact ⟨last, tail ++ [name], fun _ => by simp⟩
  rw [← Path.down_append, hrest, hrest]
  rw [hrest] at ha
  exact supplemented.fits_of_success wellFormed h comes' ha hnot

end Success

section Failure

/-- Where a walk comes that succeeded before: where it came before, to something new, or to a path that is too
long. -/
inductive ComesAgain (before after : FileTree) (root : String) (names : List String) :
    Except FileFault Standing → List Entry → Prop where
  | old {reached : Except FileFault Standing} {entered : List Entry}
    (comes : before.ComesTo root names reached entered) : ComesAgain before after root names reached entered
  | new {there : Standing} {entered : List Entry}
    (comes : ComesNew before after (Path.down root names) there entered) :
    ComesAgain before after root names (.ok there) entered
  | long {entered : List Entry} : ComesAgain before after root names (.error .nameTooLong) entered

variable (wellFormed : before.WellFormed) (supplemented : Supplemented outputs before after)
variable (apart : before.Apart outputs) (h : (before.walk root).failure = none)
include supplemented apart

theorem Supplemented.comesAgain_new {name : String} (hp : Path.down root names ≠ "")
    (hb : before.node? (name :: here.place) = none) (hm : name ∈ after.children here.place)
    (hentered : ∀ entry ∈ entered, (before.node? entry.place).isSome = true ∨
      entry.place.length < here.place.length + 1) (hd : after.isDirectory here.place = true) :
    ComesAgain before after root (name :: names)
      (after.reachChild here (Path.down root (name :: names)) name) entered := by
  rw [supplemented.reachChild_new hb hm hd]
  split
  · exact .long
  · exact .new (supplemented.comesNew apart hp hb hm hentered)

include wellFormed h

theorem Supplemented.comesAgain_old {name : String} (comes : before.ComesTo root names (.ok here) entered)
    (opens : after.Opens here entered) (hm : name ∈ after.children here.place) :
    ComesAgain before after root (name :: names)
      (after.reachChild here (Path.down root (name :: names)) name) (.of here.place .directory :: entered) := by
  have hd : before.isDirectory here.place = true := by
    by_contra hn
    exact supplemented.not_isDirectory_of_comesTo wellFormed comes hn opens.directory
  have opens' : before.Opens here entered := ⟨hd, opens.spelt, opens.fresh⟩
  by_cases hb : (before.node? (name :: here.place)).isSome = true
  · have below := comes.child opens' (mem_children_iff.2 hb)
    obtain ⟨there, hreach⟩ := exists_reached (complaint_of_success (below.success h))
    rw [supplemented.reachChild hreach, ← hreach]
    exact .old below
  · have way := wellFormed.leadsDown_of_comesTo comes rfl
    have chain := wellFormed.chain_of_opens comes opens' (wellFormed.chain_of_comesTo comes)
    exact supplemented.comesAgain_new apart (Path.down_ne_empty way.ne_empty (way.proper wellFormed))
      (by simpa using hb) hm (stands_of_chain chain here.place) opens.directory

theorem Supplemented.comesAgain (comes : after.ComesTo root names reached entered) :
    ComesAgain before after root names reached entered := by
  induction comes with
  | root =>
    obtain ⟨here, hreach⟩ := exists_reached (complaint_of_success h)
    rw [supplemented.reach hreach, ← hreach]
    exact .old .root
  | child _ opens hm ih =>
    cases ih with
    | old comes => exact supplemented.comesAgain_old wellFormed apart h comes opens hm
    | new comes =>
      exact supplemented.comesAgain_new apart comes.nonempty (wellFormed.node?_append comes.fresh [_]) hm
        comes.entered_child opens.directory

theorem Supplemented.complaint_old (comes : before.ComesTo root names reached entered) :
    after.complaint (Path.down root names) reached entered = none := by
  have hnone := complaint_of_success (comes.success h)
  obtain ⟨here, rfl⟩ := exists_reached hnone
  by_cases hd : before.isDirectory here.place = true
  · have opens := opens_of_complaint hd hnone
    simp [complaint, supplemented.keeps.isDirectory hd, opens.spelt, opens.fresh]
  · have hd' := supplemented.not_isDirectory_of_comesTo wellFormed comes hd
    rw [complaint, if_neg hd] at hnone
    rw [complaint, if_neg hd']
    split
    next ha =>
      rw [if_pos ha] at hnone
      rw [supplemented.walkArchive apart ha hnone, hnone]
    next => rfl

/-- A walk that succeeded before can only fail for a path that is too long. -/
theorem Supplemented.failure_eq {error : WalkError} (hf : (after.walk root).failure = some error) :
    ∃ path, error = .unreadable path .nameTooLong := by
  obtain ⟨names, reached, entered, comes, hc⟩ := exists_complaint .root hf
  cases supplemented.comesAgain wellFormed apart h comes with
  | old comes =>
    rw [supplemented.complaint_old wellFormed apart h comes] at hc
    cases hc
  | long => exact ⟨_, (Option.some.inj hc).symm⟩
  | @new there entered comes =>
    by_cases hd : after.isDirectory there.place = true
    · rw [complaint, if_pos hd, if_neg comes.not_anyAt] at hc
      split at hc
      next => exact ⟨_, (Option.some.inj hc).symm⟩
      next => cases hc
    · have hi := supplemented.isInput_of_comesNew comes hd
      rw [Path.isInput, Bool.or_eq_false_iff] at hi
      rw [complaint, if_neg hd, if_neg (by simp [hi])] at hc
      cases hc

end Failure

/-- A walk that succeeded before finds the same in a tree to which something has been added if and only if it
succeeds again, and that is if and only if all paths to what is new can be looked up. -/
theorem Supplemented.walk_iff (supplemented : Supplemented outputs before after) (wellFormed : before.WellFormed)
    (apart : before.Apart outputs) (order : KeepsOrder before after)
    (h : (before.walk root).failure = none) :
    ((after.walk root).failure = none ↔ NewFits before after root) ∧
      (NewFits before after root → after.walk root = before.walk root) := by
  have hwalk : NewFits before after root → after.walk root = before.walk root := by
    intro fits
    obtain ⟨here, hreach⟩ := exists_reached (complaint_of_success h)
    have hwalk := supplemented.walkFrom wellFormed apart order h fits .root
    rw [FileTree.walk, FileTree.walk, hreach, supplemented.reach hreach, ← hreach]
    exact hwalk
  refine ⟨⟨fun hafter => supplemented.newFits wellFormed hafter h, fun fits => ?_⟩, hwalk⟩
  rw [hwalk fits, h]

end FileTree

end SerialManifest

import Mathlib.Data.Set.Finite.List
import SerialManifest.Proofs.CandidatePlaces

namespace SerialManifest

/-- The path that lies `names`, innermost first, below a root. -/
def Path.down (root : String) : List String → String
  | [] => root
  | name :: outer => Path.join (Path.down root outer) name

theorem Walk.exists_failure_of_each {walk : String → Walk} {names : List String} {error : WalkError}
    (h : (each walk names).failure = some error) : ∃ name ∈ names, (walk name).failure = some error := by
  induction names with
  | nil => cases h
  | cons name names ih =>
    cases hf : (walk name).failure with
    | some first =>
      rw [each_cons_of_failure hf, hf] at h
      exact ⟨name, List.mem_cons_self, hf.trans h⟩
    | none =>
      rw [each_cons_of_success hf] at h
      obtain ⟨other, ho, hfails⟩ := ih h
      exact ⟨other, List.mem_cons_of_mem name ho, hfails⟩

namespace FileTree

/-- Going down from a root by names that the directories on the way show, the path leads to a place. -/
inductive LeadsDown (tree : FileTree) (root : String) : List String → Location → Prop where
  | root {place : Location} (h : tree.resolve root = .ok place) : LeadsDown tree root [] place
  | child {outer : List String} {name : String} {above place : Location}
    (way : LeadsDown tree root outer above) (directory : tree.isDirectory above = true)
    (shown : name ∈ tree.children above)
    (h : tree.resolve (Path.down root (name :: outer)) = .ok place) : LeadsDown tree root (name :: outer) place

/-- A path that leads back into a directory through which it has led. -/
def Loops (tree : FileTree) (root : String) (names : List String) : Prop :=
  ∃ place, tree.isDirectory place = true ∧ tree.LeadsDown root names place ∧
    ∃ outer ∈ names.tails.tail, tree.LeadsDown root outer place

/-- A directory whose children a walk goes on to. -/
structure Opens (tree : FileTree) (here : Standing) (entered : List Entry) : Prop where
  directory : tree.isDirectory here.place = true
  spelt : here.spelt = true
  fresh : ¬ Entry.anyAt entered here.place = true

/-- The paths to which a walk comes, where they have led, and the directories that it is in when it comes
there. -/
inductive ComesTo (tree : FileTree) (root : String) :
    List String → Except FileFault Standing → List Entry → Prop where
  | root : ComesTo tree root [] (tree.reach root) []
  | child {outer : List String} {here : Standing} {entered : List Entry} {name : String}
    (comes : ComesTo tree root outer (.ok here) entered) (opens : tree.Opens here entered)
    (shown : name ∈ tree.children here.place) :
    ComesTo tree root (name :: outer) (tree.reachChild here (Path.down root (name :: outer)) name)
      (.of here.place .directory :: entered)

/-- Different directories, one for each of the paths `chain`, to which these lead. -/
structure Chain (tree : FileTree) (root : String) (chain : List (List String)) (entered : List Entry) :
    Prop where
  ways : List.Forall₂ (fun names entry => tree.isDirectory entry.place = true ∧
    tree.LeadsDown root names entry.place) chain entered
  distinct : (entered.map Entry.place).Nodup

/-- What is wrong with a place itself to which a walk comes. -/
def complaint (tree : FileTree) (path : String) (reached : Except FileFault Standing)
    (entered : List Entry) : Option WalkError :=
  match reached with
  | .error .notFound => some (.notFound path)
  | .error fault => some (.unreadable path fault)
  | .ok here =>
    if tree.isDirectory here.place then
      if !here.spelt then some (.unreadable path .nameTooLong)
      else if Entry.anyAt entered here.place then some (.cycle path)
      else none
    else if Archive.isArchiveName path then (tree.walkArchive path).failure
    else none

variable {tree : FileTree} {root : String} {names : List String} {place : Location}
variable {reached : Except FileFault Standing} {entered : List Entry} {here : Standing}

theorem LeadsDown.resolve (h : tree.LeadsDown root names place) :
    tree.resolve (Path.down root names) = .ok place := by
  cases h with
  | root h => exact h
  | child _ _ _ h => exact h

theorem LeadsDown.eq {other : Location} (h : tree.LeadsDown root names place)
    (ho : tree.LeadsDown root names other) : place = other :=
  Except.ok.inj (h.resolve.symm.trans ho.resolve)

theorem place_of_reach {path : String} (h : tree.reach path = .ok here) :
    tree.resolve path = .ok here.place := by
  rw [FileTree.resolve, h]
  rfl

theorem Opens.walkFrom (opens : tree.Opens here entered) : tree.walkFrom root (Path.down root names) (.ok here)
    entered = .each (tree.walkChild root (Path.down root names) here entered) (tree.children here.place) :=
  walkFrom_of_directory opens.directory opens.spelt opens.fresh

theorem opens_of_complaint (hd : tree.isDirectory here.place = true)
    (h : tree.complaint (Path.down root names) (.ok here) entered = none) : tree.Opens here entered := by
  simp only [complaint, hd, ↓reduceIte] at h
  split at h
  next => cases h
  next hs =>
    split at h
    next => cases h
    next hc => exact ⟨hd, by simpa using hs, hc⟩

theorem failure_walkFile (root path : String) : (walkFile root path).failure = none := by
  unfold walkFile
  split
  · split <;> rfl
  · rfl

theorem failure_walkArchive_ne_cycle (path other : String) :
    (tree.walkArchive path).failure ≠ some (.cycle other) := by
  unfold walkArchive
  split <;> simp [Walk.failed, Walk.of]

theorem complaint_eq_cycle {path other : String} (h : tree.complaint path reached entered = some (.cycle other)) :
    ∃ here, reached = .ok here ∧ other = path ∧ tree.isDirectory here.place = true ∧
      Entry.anyAt entered here.place = true := by
  unfold complaint at h
  split at h
  next => cases h
  next => cases h
  next here =>
    split at h
    next hd =>
      split at h
      next => cases h
      next =>
        split at h
        next hc =>
          cases h
          exact ⟨here, rfl, rfl, hd, hc⟩
        next => cases h
    next =>
      split at h
      next => exact absurd h (failure_walkArchive_ne_cycle path other)
      next => cases h

theorem complaint_of_success {path : String} (h : (tree.walkFrom root path reached entered).failure = none) :
    tree.complaint path reached entered = none := by
  cases reached with
  | error fault => cases fault <;> simp [walkFrom, Walk.failed] at h
  | ok here =>
    by_cases hd : tree.isDirectory here.place = true
    · by_cases hs : here.spelt = true
      · by_cases hc : Entry.anyAt entered here.place = true
        · simp [walkFrom_of_cycle hd hs hc, Walk.failed] at h
        · simp [complaint, hd, hs, hc]
      · simp [walkFrom_of_unspelt hd (by simpa using hs), Walk.failed] at h
    · by_cases ha : Archive.isArchiveName path = true
      · rw [walkFrom_of_archive hd ha] at h
        simpa [complaint, hd, ha] using h
      · simp [complaint, hd, ha]

/-- A walk fails for what is wrong with a place to which it comes. -/
theorem exists_complaint (comes : tree.ComesTo root names reached entered) {error : WalkError}
    (h : (tree.walkFrom root (Path.down root names) reached entered).failure = some error) :
    ∃ names reached entered, tree.ComesTo root names reached entered ∧
      tree.complaint (Path.down root names) reached entered = some error := by
  generalize hpath : Path.down root names = path at h
  induction path, reached, entered using walkFrom.induct tree root generalizing names with
  | case1 path entered =>
    refine ⟨names, _, entered, comes, ?_⟩
    rw [hpath]
    simpa [walkFrom, complaint, Walk.failed] using h
  | case2 path entered fault hf =>
    rw [walkFrom.eq_2 _ _ _ _ _ hf] at h
    refine ⟨names, _, entered, comes, ?_⟩
    rw [hpath, complaint.eq_2 _ _ _ _ hf]
    exact h
  | case3 path entered here hd hs =>
    rw [walkFrom_of_unspelt hd (by simpa using hs)] at h
    refine ⟨names, _, entered, comes, ?_⟩
    simp only [complaint, hd, hs, hpath, ↓reduceIte]
    exact h
  | case4 path entered here hd hs hc =>
    rw [walkFrom_of_cycle hd (by simpa using hs) hc] at h
    refine ⟨names, _, entered, comes, ?_⟩
    simp only [complaint, hd, hs, hc, hpath, ↓reduceIte]
    exact h
  | case5 path entered here hd hs hc ih =>
    subst hpath
    rw [walkFrom_of_directory hd (by simpa using hs) hc] at h
    obtain ⟨name, hm, hn⟩ := Walk.exists_failure_of_each h
    exact ih name (.child comes ⟨hd, by simpa using hs, hc⟩ hm) rfl hn
  | case6 path entered here hd ha =>
    rw [walkFrom_of_archive hd ha] at h
    refine ⟨names, _, entered, comes, ?_⟩
    simp only [complaint, hd, ha, hpath, ↓reduceIte]
    exact h
  | case7 path entered here hd ha =>
    rw [walkFrom_of_file hd ha, failure_walkFile] at h
    cases h

/-- Where a walk succeeds so do the walks from all places to which it comes. -/
theorem ComesTo.success (comes : tree.ComesTo root names reached entered)
    (h : (tree.walk root).failure = none) :
    (tree.walkFrom root (Path.down root names) reached entered).failure = none := by
  induction comes with
  | root => exact h
  | child comes opens shown ih =>
    rw [opens.walkFrom] at ih
    exact Walk.failure_each_eq_none_iff.1 ih _ shown

/-- What holds of every file to which a walk comes that succeeds, and of a directory if it holds of all that
stands in it, holds of everything to which the walk comes. -/
@[elab_as_elim]
theorem ComesTo.induction_of_success {motive : List String → Except FileFault Standing → List Entry → Prop}
    (h : (tree.walk root).failure = none)
    (directory : ∀ names here entered, tree.ComesTo root names (.ok here) entered → tree.Opens here entered →
      (∀ name ∈ tree.children here.place, motive (name :: names)
        (tree.reachChild here (Path.down root (name :: names)) name) (.of here.place .directory :: entered)) →
      motive names (.ok here) entered)
    (archive : ∀ names here entered, tree.ComesTo root names (.ok here) entered →
      ¬ tree.isDirectory here.place = true → Archive.isArchiveName (Path.down root names) = true →
      (tree.walkArchive (Path.down root names)).failure = none → motive names (.ok here) entered)
    (file : ∀ names here entered, tree.ComesTo root names (.ok here) entered →
      ¬ tree.isDirectory here.place = true → ¬ Archive.isArchiveName (Path.down root names) = true →
      motive names (.ok here) entered)
    (comes : tree.ComesTo root names reached entered) : motive names reached entered := by
  have hsuccess := comes.success h
  generalize hpath : Path.down root names = path at hsuccess
  induction path, reached, entered using walkFrom.induct tree root generalizing names with
  | case1 path entered => simp [walkFrom, Walk.failed] at hsuccess
  | case2 path entered fault hf =>
    rw [walkFrom.eq_2 _ _ _ _ _ hf] at hsuccess
    simp [Walk.failed] at hsuccess
  | case3 path entered here hd hs =>
    rw [walkFrom_of_unspelt hd (by simpa using hs)] at hsuccess
    simp [Walk.failed] at hsuccess
  | case4 path entered here hd hs hc =>
    rw [walkFrom_of_cycle hd (by simpa using hs) hc] at hsuccess
    simp [Walk.failed] at hsuccess
  | case5 path entered here hd hs hc ih =>
    subst hpath
    have opens : tree.Opens here entered := ⟨hd, by simpa using hs, hc⟩
    refine directory names here entered comes opens fun name hm => ?_
    have below := ComesTo.child comes opens hm
    exact ih name below rfl (below.success h)
  | case6 path entered here hd ha =>
    subst hpath
    rw [walkFrom_of_archive hd ha] at hsuccess
    exact archive names here entered comes hd ha hsuccess
  | case7 path entered here hd ha =>
    subst hpath
    exact file names here entered comes hd ha

section WellFormed

variable (wellFormed : tree.WellFormed)
include wellFormed

theorem WellFormed.reach_of_comesTo (comes : tree.ComesTo root names reached entered) :
    tree.reach (Path.down root names) = reached := by
  induction comes with
  | root => rfl
  | child comes opens shown ih => exact reach_join (wellFormed.properName shown) ih

theorem WellFormed.leadsDown_of_comesTo (comes : tree.ComesTo root names reached entered)
    (h : reached = .ok here) : tree.LeadsDown root names here.place := by
  induction comes generalizing here with
  | root => exact .root (place_of_reach h)
  | child comes opens shown ih =>
    have hreach := wellFormed.reach_of_comesTo (.child comes opens shown)
    exact .child (ih rfl) opens.directory shown (place_of_reach (hreach.trans h))

theorem WellFormed.chain_of_opens (comes : tree.ComesTo root names (.ok here) entered)
    (opens : tree.Opens here entered) (before : tree.Chain root names.tails.tail entered) :
    tree.Chain root names.tails (.of here.place .directory :: entered) where
  ways := by
    have way := wellFormed.leadsDown_of_comesTo comes rfl
    cases names with
    | nil => exact .cons ⟨opens.directory, way⟩ before.ways
    | cons name outer => exact .cons ⟨opens.directory, way⟩ before.ways
  distinct := by
    rw [List.map_cons, List.nodup_cons]
    exact ⟨fun hm => opens.fresh (Entry.anyAt_iff.2 hm), before.distinct⟩

/-- The directories that a walk is in are those on the way to where it has come. -/
theorem WellFormed.chain_of_comesTo (comes : tree.ComesTo root names reached entered) :
    tree.Chain root names.tails.tail entered := by
  induction comes with
  | root => exact ⟨.nil, List.nodup_nil⟩
  | child comes opens _ ih => exact wellFormed.chain_of_opens comes opens ih

end WellFormed

section Chain

variable {chain : List (List String)} (h : tree.Chain root chain entered)
include h

/-- Each of the paths leads to one of the directories. -/
theorem Chain.exists_entry (hm : names ∈ chain) :
    ∃ entry ∈ entered, tree.isDirectory entry.place = true ∧ tree.LeadsDown root names entry.place := by
  obtain ⟨⟨i, hi⟩, rfl⟩ := List.get_of_mem hm
  have hi' : i < entered.length := h.ways.length_eq ▸ hi
  exact ⟨entered.get ⟨i, hi'⟩, List.get_mem entered _, h.ways.get hi hi'⟩

/-- To each of the directories one of the paths leads. -/
theorem Chain.exists_way {entry : Entry} (hm : entry ∈ entered) :
    ∃ names ∈ chain, tree.isDirectory entry.place = true ∧ tree.LeadsDown root names entry.place := by
  obtain ⟨⟨i, hi⟩, rfl⟩ := List.get_of_mem hm
  have hi' : i < chain.length := h.ways.length_eq.symm ▸ hi
  exact ⟨chain.get ⟨i, hi'⟩, List.get_mem chain _, h.ways.get hi' hi⟩

theorem Chain.isDirectory : ∀ entry ∈ entered, tree.isDirectory entry.place = true := by
  intro entry hm
  obtain ⟨names, _, hd, _⟩ := h.exists_way hm
  exact hd

theorem Chain.length_le : entered.length ≤ tree.directories.length := by
  have hsub : entered.map Entry.place ⊆ tree.directories := by
    intro place hm
    obtain ⟨entry, he, rfl⟩ := List.mem_map.1 hm
    exact mem_directories (h.isDirectory entry he)
  have hlen := (h.distinct.subperm hsub).length_le
  rwa [List.length_map] at hlen

theorem Chain.anyAt_of_leadsDown (hm : names ∈ chain) (way : tree.LeadsDown root names place) :
    Entry.anyAt entered place = true := by
  obtain ⟨entry, he, _, ho⟩ := h.exists_entry hm
  rw [Entry.anyAt_iff, way.eq ho]
  exact List.mem_map_of_mem he

end Chain

theorem ComesTo.length_eq (comes : tree.ComesTo root names reached entered) :
    entered.length = names.length := by
  induction comes with
  | root => rfl
  | child _ _ _ ih => simp [ih]

theorem ComesTo.mem_names (comes : tree.ComesTo root names reached entered) :
    ∀ name ∈ names, name ∈ tree.entries.flatMap Entry.place := by
  induction comes with
  | root => simp
  | child _ _ shown ih =>
    intro other hm
    rcases List.mem_cons.1 hm with rfl | hm
    · obtain ⟨entry, he, hc⟩ := List.mem_filterMap.1 shown
      refine List.mem_flatMap.2 ⟨entry, he, ?_⟩
      rw [Entry.childName?_eq_some_iff.1 hc]
      exact List.mem_cons_self
    · exact ih other hm

section WellFormed

variable (wellFormed : tree.WellFormed)
include wellFormed

theorem WellFormed.length_le_of_comesTo (comes : tree.ComesTo root names reached entered) :
    names.length ≤ tree.directories.length :=
  comes.length_eq ▸ (wellFormed.chain_of_comesTo comes).length_le

/-- A walk comes to finitely many places. -/
theorem WellFormed.finite_comesTo (root : String) :
    {names | ∃ reached entered, tree.ComesTo root names reached entered}.Finite := by
  -- the names are all taken from those in the tree, and there are no more of them than directories
  let known := {name // name ∈ tree.entries.flatMap Entry.place}
  have hfinite := (List.finite_length_le known tree.directories.length).image (List.map Subtype.val)
  refine hfinite.subset ?_
  rintro names ⟨reached, entered, comes⟩
  have hlen := wellFormed.length_le_of_comesTo comes
  lift names to List known using comes.mem_names
  rw [List.length_map] at hlen
  exact ⟨names, hlen, rfl⟩

/-- A walk that succeeds comes to everything that lies below its root. -/
theorem WellFormed.comesTo_of_leadsDown (h : (tree.walk root).failure = none)
    (way : tree.LeadsDown root names place) :
    ∃ here entered, tree.ComesTo root names (.ok here) entered ∧ here.place = place := by
  induction way with
  | root hr =>
    obtain ⟨here, hreach, rfl⟩ := Except.map_eq_ok_iff.1 hr
    exact ⟨here, [], hreach ▸ .root, rfl⟩
  | @child outer name above place _ hd shown hr ih =>
    obtain ⟨here, entered, comes, rfl⟩ := ih
    have opens := opens_of_complaint hd (complaint_of_success (comes.success h))
    have below := ComesTo.child comes opens shown
    obtain ⟨there, hreach, rfl⟩ := Except.map_eq_ok_iff.1 hr
    rw [← wellFormed.reach_of_comesTo below, hreach] at below
    exact ⟨there, _, below, rfl⟩

theorem WellFormed.failure_of_loops (loops : tree.Loops root names) : (tree.walk root).failure ≠ none := by
  intro h
  obtain ⟨place, hd, way, outer, hm, back⟩ := loops
  obtain ⟨here, entered, comes, rfl⟩ := wellFormed.comesTo_of_leadsDown h way
  have opens := opens_of_complaint hd (complaint_of_success (comes.success h))
  exact opens.fresh ((wellFormed.chain_of_comesTo comes).anyAt_of_leadsDown hm back)

theorem WellFormed.loops_of_cycle {path : String} (h : (tree.walk root).failure = some (.cycle path)) :
    ∃ names, path = Path.down root names ∧ tree.Loops root names := by
  obtain ⟨names, reached, entered, comes, hc⟩ := exists_complaint .root h
  obtain ⟨here, rfl, rfl, hd, hagain⟩ := complaint_eq_cycle hc
  refine ⟨names, rfl, here.place, hd, wellFormed.leadsDown_of_comesTo comes rfl, ?_⟩
  obtain ⟨entry, he, hplace⟩ := List.mem_map.1 (Entry.anyAt_iff.1 hagain)
  obtain ⟨outer, hm, _, way⟩ := (wellFormed.chain_of_comesTo comes).exists_way he
  exact ⟨outer, hm, hplace ▸ way⟩

/-- Walks end, and they report real cycles. A walk comes to finitely many paths. Where it comes to a path, and
also once it has entered a directory there, the directories that it is in are different ones and just those on
the way from the root to that path. It reports a cycle at a path only if that path leads back into a directory
on the way to it, and it does not succeed if some path does. -/
theorem WellFormed.walk_descends (root : String) :
    {names | ∃ reached entered, tree.ComesTo root names reached entered}.Finite ∧
    (∀ names reached entered, tree.ComesTo root names reached entered →
      tree.Chain root names.tails.tail entered ∧ names.length ≤ tree.directories.length ∧
        ∀ here, reached = .ok here → tree.Opens here entered →
          tree.Chain root names.tails (.of here.place .directory :: entered)) ∧
    (∀ path, (tree.walk root).failure = some (.cycle path) →
      ∃ names, path = Path.down root names ∧ tree.Loops root names) ∧
    ∀ names, tree.Loops root names → (tree.walk root).failure ≠ none := by
  refine ⟨wellFormed.finite_comesTo root, ?_, fun path h => wellFormed.loops_of_cycle h,
    fun names loops => wellFormed.failure_of_loops loops⟩
  intro names reached entered comes
  have before := wellFormed.chain_of_comesTo comes
  refine ⟨before, wellFormed.length_le_of_comesTo comes, ?_⟩
  rintro here rfl opens
  exact wellFormed.chain_of_opens comes opens before

end WellFormed

/-- A directory `lib` with a directory in it to which two links lead, and a third link that leads elsewhere. -/
def linkedTree (target : String) : FileTree where
  entries := [.of ["lib"] .directory, .of ["a", "lib"] .directory, .of ["x", "lib"] (.link "a"),
    .of ["y", "lib"] (.link "a"), .of ["z", "lib"] (.link target)]
  current := []
  distinct := by simp [Entry.of]

/-- Coming to one directory three times over is no cycle, but a link back to a directory above is. -/
theorem walk_descends_of_linkedTree :
    ((linkedTree "a").WellFormed ∧ ((linkedTree "a").walk "lib").failure = none ∧
      ∀ names, ¬ (linkedTree "a").Loops "lib" names) ∧
    (linkedTree "..").WellFormed ∧ ((linkedTree "..").walk "lib").failure = some (.cycle "lib/z/lib") ∧
      ∃ names, "lib/z/lib" = Path.down "lib" names ∧ (linkedTree "..").Loops "lib" names := by
  have diamond : (linkedTree "a").WellFormed := ⟨by decide +kernel, by decide +kernel⟩
  have loop : (linkedTree "..").WellFormed := ⟨by decide +kernel, by decide +kernel⟩
  have hdiamond : ((linkedTree "a").walk "lib").failure = none := by decide +kernel
  have hloop : ((linkedTree "..").walk "lib").failure = some (.cycle "lib/z/lib") := by decide +kernel
  obtain ⟨_, _, _, hnone⟩ := diamond.walk_descends "lib"
  obtain ⟨_, _, hcycle, _⟩ := loop.walk_descends "lib"
  exact ⟨⟨diamond, hdiamond, fun names loops => hnone names loops hdiamond⟩, loop, hloop, hcycle _ hloop⟩

end FileTree

end SerialManifest

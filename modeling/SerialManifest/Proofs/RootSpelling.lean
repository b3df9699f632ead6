import SerialManifest.Proofs.SupplementedTree
import SerialManifest.Proofs.WalkFindings

namespace SerialManifest

namespace Path

variable {root path name : String} {names : List String}

/-- What the paths of all that is found below a root begin with. -/
def front (root : String) : String :=
  if root.toList.getLast? = some '/' then root else root ++ "/"

/-- The path that names, innermost first, make by themselves. -/
def nested (names : List String) : String :=
  String.ofList (Text.join '/' (names.reverse.map String.toList))

theorem nested_cons {outer : List String} (ho : outer ≠ []) :
    nested (name :: outer) = nested outer ++ "/" ++ name := by
  apply String.toList_injective
  rw [nested, List.reverse_cons, List.map_append, List.map_singleton, Text.join_concat '/' (by simpa using ho)]
  simp [nested]

theorem getLast?_join (proper : ProperName name) (hp : path ≠ "") :
    (join path name).toList.getLast? ≠ some '/' := by
  obtain ⟨lead, hl⟩ := exists_join_eq proper hp
  have hne : name.toList ≠ [] := fun he => proper.nonempty (String.toList_eq_nil_iff.1 he)
  rw [hl, List.getLast?_append, List.getLast?_cons, List.getLast?_eq_some_getLast hne]
  intro hlast
  have hslash : name.toList.getLast hne = '/' := by simpa using hlast
  exact proper.noSlash (hslash ▸ List.getLast_mem hne)

/-- A path below a root is the root, as it is spelt, and the names. -/
theorem down_eq (hr : root ≠ "") (proper : ∀ name ∈ names, ProperName name) (hn : names ≠ []) :
    down root names = front root ++ nested names := by
  induction names with
  | nil => exact absurd rfl hn
  | cons name outer ih =>
    have hname := proper name List.mem_cons_self
    have houter : ∀ other ∈ outer, ProperName other := fun other ho => proper other (List.mem_cons_of_mem name ho)
    cases outer with
    | nil =>
      rw [down, down, join_eq hname hr, front]
      split <;> simp [nested, Text.join]
    | cons next more =>
      have hmore := down_ne_empty hr fun other ho => houter other (List.mem_cons_of_mem next ho)
      have hopen : (down root (next :: more)).toList.getLast? ≠ some '/' :=
        getLast?_join (houter next List.mem_cons_self) hmore
      rw [down, join_eq hname (down_ne_empty hr houter), if_neg hopen, ih houter (List.cons_ne_nil _ _),
        nested_cons (List.cons_ne_nil _ _)]
      simp [String.append_assoc]

theorem exists_down_eq (hr : root ≠ "") (proper : ∀ name ∈ names, ProperName name) (hn : names ≠ []) :
    ∃ lead, (down root names).toList = lead ++ '/' :: (nested names).toList := by
  rw [down_eq hr proper hn, front]
  by_cases hs : root.toList.getLast? = some '/'
  · obtain ⟨lead, hl⟩ := List.getLast?_eq_some_iff.1 hs
    exact ⟨lead, by simp [hl]⟩
  · exact ⟨root.toList, by simp [hs]⟩

end Path

/-- The place with a root before its path. -/
def Origin.under (root : String) : Origin → Origin
  | .file path => .file (Path.front root ++ path)
  | .entry archive name => .entry (Path.front root ++ archive) name

def Candidate.under (root : String) (candidate : Candidate) : Candidate :=
  { candidate with origin := candidate.origin.under root }

namespace FileTree

variable {tree : FileTree} {first second : String} {names : List String}

theorem place_of_onward {here here' there there' : Standing} {steps : List Step} (hp : here.place = here'.place)
    (h : tree.onward here steps = .ok there) (h' : tree.onward here' steps = .ok there') :
    there.place = there'.place := by
  rcases Nat.le_total here.links here'.links with hle | hle
  · obtain ⟨other, hother, hplace⟩ := follow_of_more hle hp h
    cases hother.symm.trans h'
    exact hplace.symm
  · obtain ⟨other, hother, hplace⟩ := follow_of_more hle hp.symm h'
    cases hother.symm.trans h
    exact hplace

theorem onward_of_reachChild {here there : Standing} {path name : String}
    (h : tree.reachChild here path name = .ok there) : tree.onward here [.child name] = .ok there := by
  unfold reachChild at h
  split at h
  · cases h
  · exact h

theorem exists_standing {root path : String} {reached : Except FileFault Standing} {entered : List Entry}
    (h : (tree.walkFrom root path reached entered).failure = none) : ∃ here, reached = .ok here := by
  cases reached with
  | ok here => exact ⟨here, rfl⟩
  | error fault => cases fault <;> simp [walkFrom, Walk.failed] at h

/-- The definitions that an archive lists, the archive being at a path. -/
def listed (path : String) (archive : Archive) : List Candidate :=
  (archive.names.filter (!Archive.isDirectoryName ·)).filterMap fun name =>
    (Candidate.typeName? name).map (⟨·, .entry path name⟩)

theorem exists_listed {path : String} (h : (tree.walkArchive path).failure = none) :
    ∃ archive, tree.openArchive path = .ok archive ∧ (tree.walkArchive path).found = listed path archive := by
  unfold walkArchive at h ⊢
  cases ho : tree.openArchive path with
  | error error =>
    rw [ho] at h
    cases h
  | ok archive => exact ⟨archive, rfl, rfl⟩

theorem contentAt_of_openArchive {path : String} {place : Location} {archive : Archive}
    (hp : tree.resolve path = .ok place) (h : tree.openArchive path = .ok archive) :
    tree.contentAt place = .ok (.archive archive) := by
  unfold openArchive at h
  rw [hp] at h
  dsimp only at h
  split at h
  next stored hc => rw [hc, Content.asArchive_eq_ok_iff.1 h]
  next => cases h

/-- The definition that a file is, the file being called by its path below a root. -/
def filed (path : String) : List Candidate :=
  if Candidate.isDefinitionName path then ((Candidate.typeName? path).map (⟨·, .file path⟩)).toList else []

section Below

variable {root : String} (hr : root ≠ "") (proper : ∀ name ∈ names, Path.ProperName name) (hn : names ≠ [])
include hr proper hn

theorem isArchiveName_down : Archive.isArchiveName (Path.down root names) =
    Archive.isArchiveName (Path.nested names) := by
  obtain ⟨lead, hl⟩ := Path.exists_down_eq hr proper hn
  rw [Archive.isArchiveName_of_append hl, String.ofList_toList]

theorem isDefinitionName_down : Candidate.isDefinitionName (Path.down root names) =
    Candidate.isDefinitionName (Path.nested names) := by
  obtain ⟨lead, hl⟩ := Path.exists_down_eq hr proper hn
  rw [Candidate.isDefinitionName_of_append hl, String.ofList_toList]

theorem listed_down (archive : Archive) :
    listed (Path.down root names) archive = (listed (Path.nested names) archive).map (Candidate.under root) := by
  unfold listed
  rw [List.map_filterMap, Path.down_eq hr proper hn]
  refine List.filterMap_congr fun name _ => ?_
  rw [Option.map_map]
  rfl

/-- The path of a file without that of the root is the same however the root is spelt. -/
theorem relative_down_eq : Path.relative root (Path.down root names) = Path.nested names := by
  rw [Path.relative_down hr proper hn, Path.below, if_neg hn, Path.nested]

theorem found_walkFile_down : (walkFile root (Path.down root names)).found =
    (filed (Path.nested names)).map (Candidate.under root) := by
  unfold walkFile filed
  rw [isDefinitionName_down hr proper hn, relative_down_eq hr proper hn]
  split
  · cases Candidate.typeName? (Path.nested names) with
    | none => rfl
    | some name =>
      rw [Path.down_eq hr proper hn]
      rfl
  · rfl

end Below

section WellFormed

variable (wellFormed : tree.WellFormed)
include wellFormed

/-- Walks that have come to one file below two roots, by the same names, find the same there. -/
theorem WellFormed.exists_common_of_file {here here' : Standing} {entered entered' : List Entry}
    (comes : tree.ComesTo first names (.ok here) entered) (comes' : tree.ComesTo second names (.ok here') entered')
    (h : (tree.walkFrom first (Path.down first names) (.ok here) entered).failure = none)
    (h' : (tree.walkFrom second (Path.down second names) (.ok here') entered').failure = none)
    (hp : here.place = here'.place) (hd : ¬ tree.isDirectory here.place = true) (hn : names ≠ []) :
    ∃ found : List Candidate,
      (tree.walkFrom first (Path.down first names) (.ok here) entered).found = found.map (.under first) ∧
      (tree.walkFrom second (Path.down second names) (.ok here') entered').found = found.map (.under second) := by
  have way := wellFormed.leadsDown_of_comesTo comes rfl
  have way' := wellFormed.leadsDown_of_comesTo comes' rfl
  have proper := way.proper wellFormed
  have hd' : ¬ tree.isDirectory here'.place = true := hp ▸ hd
  have hcalled : Archive.isArchiveName (Path.down second names) = Archive.isArchiveName (Path.down first names) := by
    rw [isArchiveName_down way'.ne_empty proper hn, isArchiveName_down way.ne_empty proper hn]
  by_cases ha : Archive.isArchiveName (Path.down first names) = true
  · rw [walkFrom_of_archive hd ha] at h ⊢
    rw [walkFrom_of_archive hd' (hcalled.trans ha)] at h' ⊢
    obtain ⟨archive, hopen, hfound⟩ := exists_listed h
    obtain ⟨archive', hopen', hfound'⟩ := exists_listed h'
    have hcontent := contentAt_of_openArchive way.resolve hopen
    rw [hp, contentAt_of_openArchive way'.resolve hopen'] at hcontent
    cases hcontent
    refine ⟨listed (Path.nested names) archive, ?_, ?_⟩
    · rw [hfound, listed_down way.ne_empty proper hn]
    · rw [hfound', listed_down way'.ne_empty proper hn]
  · refine ⟨filed (Path.nested names), ?_, ?_⟩
    · rw [walkFrom_of_file hd ha, found_walkFile_down way.ne_empty proper hn]
    · rw [walkFrom_of_file hd' (hcalled ▸ ha), found_walkFile_down way'.ne_empty proper hn]

/-- Walks that have come to one place below two roots, by the same names, find the same from there on. -/
theorem WellFormed.exists_common (h : (tree.walk first).failure = none) (h' : (tree.walk second).failure = none)
    {reached : Except FileFault Standing} {entered : List Entry}
    (comes : tree.ComesTo first names reached entered) :
    ∀ here here' entered', reached = .ok here → tree.ComesTo second names (.ok here') entered' →
      here.place = here'.place → (names = [] → tree.isDirectory here.place = true) →
      ∃ found : List Candidate,
        (tree.walkFrom first (Path.down first names) reached entered).found = found.map (.under first) ∧
        (tree.walkFrom second (Path.down second names) (.ok here') entered').found = found.map (.under second) := by
  refine ComesTo.induction_of_success h ?directory ?archive ?file comes
  case directory =>
    rintro names here entered comes opens ih _ here' entered' ⟨⟩ comes' hp _
    have opens' : tree.Opens here' entered' :=
      opens_of_complaint (hp ▸ opens.directory) (complaint_of_success (comes'.success h'))
    have hall := comes.success h
    have hall' := comes'.success h'
    rw [opens.walkFrom, Walk.failure_each_eq_none_iff] at hall
    rw [opens'.walkFrom, Walk.failure_each_eq_none_iff, ← hp] at hall'
    have hchild : ∀ name ∈ tree.children here.place, ∃ found : List Candidate,
        (tree.walkChild first (Path.down first names) here entered name).found = found.map (.under first) ∧
        (tree.walkChild second (Path.down second names) here' entered' name).found =
          found.map (.under second) := by
      intro name hm
      obtain ⟨there, hthere⟩ := exists_standing (hall name hm)
      obtain ⟨there', hthere'⟩ := exists_standing (hall' name hm)
      have below' := ComesTo.child comes' opens' (hp ▸ hm)
      rw [Path.down, hthere'] at below'
      have hplace := place_of_onward hp (onward_of_reachChild hthere) (onward_of_reachChild hthere')
      have hfound := ih name hm there there' _ hthere below' hplace (by simp)
      rwa [← hthere'] at hfound
    choose! found hfirst hsecond using hchild
    refine ⟨(tree.children here.place).flatMap found, ?_, ?_⟩
    · rw [opens.walkFrom, Walk.found_each hall, List.map_flatMap]
      exact List.flatMap_congr hfirst
    · rw [opens'.walkFrom, ← hp, Walk.found_each hall', List.map_flatMap]
      exact List.flatMap_congr hsecond
  case archive =>
    rintro names here entered comes hd _ _ _ here' entered' ⟨⟩ comes' hp hroot
    exact wellFormed.exists_common_of_file comes comes' (comes.success h) (comes'.success h') hp hd
      fun he => hd (hroot he)
  case file =>
    rintro names here entered comes hd _ _ here' entered' ⟨⟩ comes' hp hroot
    exact wellFormed.exists_common_of_file comes comes' (comes.success h) (comes'.success h') hp hd
      fun he => hd (hroot he)

/-- However the root is spelt. Two walks from roots that lead to the same directory, if both succeed, find
definitions of the same names in the same order, and at the same places but for the root before their paths. -/
theorem WellFormed.walk_of_sameDirectory {place : Location} (hfirst : tree.resolve first = .ok place)
    (hsecond : tree.resolve second = .ok place) (hd : tree.isDirectory place = true)
    (h : (tree.walk first).failure = none) (h' : (tree.walk second).failure = none) :
    (tree.walk first).found.map Candidate.name = (tree.walk second).found.map Candidate.name ∧
    ∃ found : List Candidate, (tree.walk first).found = found.map (.under first) ∧
      (tree.walk second).found = found.map (.under second) := by
  obtain ⟨here, hreach, rfl⟩ := Except.map_eq_ok_iff.1 hfirst
  obtain ⟨here', hreach', hp⟩ := Except.map_eq_ok_iff.1 hsecond
  have comes : tree.ComesTo second [] (.ok here') [] := hreach' ▸ .root
  obtain ⟨found, hf, hs⟩ := wellFormed.exists_common h h' .root here here' [] hreach comes hp.symm fun _ => hd
  rw [← hreach'] at hs
  have hf : (tree.walk first).found = found.map (.under first) := hf
  have hs : (tree.walk second).found = found.map (.under second) := hs
  refine ⟨?_, found, hf, hs⟩
  rw [hf, hs, List.map_map, List.map_map]
  rfl

end WellFormed

/-- A directory with definitions at several depths and a link to it. -/
def aliasTree : FileTree :=
  mixedTree.put ["alias"] (.link "./lib")

/-- Two slashes behind a name, and a way through the directory itself, its parent and the link. -/
theorem walk_of_aliasTree :
    aliasTree.WellFormed ∧ aliasTree.resolve "lib//" = .ok ["lib"] ∧
    aliasTree.resolve "./lib/../alias/." = .ok ["lib"] ∧ aliasTree.isDirectory ["lib"] = true ∧
    (aliasTree.walk "lib//").failure = none ∧ (aliasTree.walk "./lib/../alias/.").failure = none ∧
    (aliasTree.walk "lib//").found = [⟨"p.B", .entry "lib//a.jar/A.class/c.Zip" "p/B.class"⟩,
      ⟨"C", .file "lib//C.CLASS"⟩, ⟨"D", .file "lib//D.class"⟩] ∧
    (aliasTree.walk "lib//").found.map Candidate.name =
      (aliasTree.walk "./lib/../alias/.").found.map Candidate.name ∧
    ∃ found : List Candidate, (aliasTree.walk "lib//").found = found.map (.under "lib//") ∧
      (aliasTree.walk "./lib/../alias/.").found = found.map (.under "./lib/../alias/.") := by
  have wellFormed : aliasTree.WellFormed := ⟨by decide +kernel, by decide +kernel⟩
  have hfirst : aliasTree.resolve "lib//" = .ok ["lib"] := by decide +kernel
  have hsecond : aliasTree.resolve "./lib/../alias/." = .ok ["lib"] := by decide +kernel
  have hd : aliasTree.isDirectory ["lib"] = true := by decide +kernel
  have h : (aliasTree.walk "lib//").failure = none := by decide +kernel
  have h' : (aliasTree.walk "./lib/../alias/.").failure = none := by decide +kernel
  exact ⟨wellFormed, hfirst, hsecond, hd, h, h', by decide +kernel,
    wellFormed.walk_of_sameDirectory hfirst hsecond hd h h'⟩

end FileTree

end SerialManifest

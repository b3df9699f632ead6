import Mathlib.Data.List.Nodup
import Mathlib.Tactic.Choose
import SerialManifest.Proofs.PathsBelow
import SerialManifest.Proofs.SameContents

namespace SerialManifest

namespace FileTree

variable {tree : FileTree} {root : String} {names : List String} {place : Location}

/-- What there is to be found at a path that leads to a file, `below` being its path below the root: every
definition that an archive lists, each once, and otherwise the definition that the file is. -/
def candidatesAt (tree : FileTree) (path : String) (below : List Char) : List Candidate :=
  if Archive.isArchiveName path then
    match tree.openArchive path with
    | .error _ => []
    | .ok archive =>
      let listed := (archive.entries.map (·.name)).eraseDups
      (listed.filter fun name => name.toList.getLast? ≠ some '/' ∧ Candidate.isDefinitionName name).filterMap
        fun name => (Candidate.dotted? name.toList).map (⟨·, .entry path name⟩)
  else if Candidate.isDefinitionName path then
    ((Candidate.dotted? below).map (⟨·, .file path⟩)).toList
  else []

theorem found_walkArchive {path : String} (ha : Archive.isArchiveName path = true) (below : List Char) :
    (tree.walkArchive path).found = tree.candidatesAt path below := by
  rw [candidatesAt, if_pos ha, walkArchive]
  cases tree.openArchive path with
  | error _ => rfl
  | ok archive =>
    simp only [Walk.of, Archive.names, List.filterMap_filter]
    refine List.filterMap_congr fun name _ => ?_
    rw [Candidate.typeName?_eq]
    by_cases hd : name.toList.getLast? = some '/'
    · simp [Archive.isDirectoryName, hd]
    · by_cases hn : Candidate.isDefinitionName name = true
      · simp [Archive.isDirectoryName, hd, hn]
      · simp [hn]

theorem found_walkFile (tree : FileTree) (hr : root ≠ "") (proper : ∀ name ∈ names, Path.ProperName name)
    (ha : ¬ Archive.isArchiveName (Path.down root names) = true) :
    (walkFile root (Path.down root names)).found =
      tree.candidatesAt (Path.down root names) (Path.below root names) := by
  rw [candidatesAt, if_neg ha, walkFile]
  by_cases hd : Candidate.isDefinitionName (Path.down root names) = true
  · have hrelative : Path.relative root (Path.down root names) = String.ofList (Path.below root names) := by
      by_cases hn : names = []
      · subst hn
        have hname := Path.fileName?_of_isDefinitionName hd
        rw [Path.down] at hname ⊢
        rw [Path.relative, if_pos rfl, hname]
        rfl
      · exact Path.relative_down hr proper hn
    have htype : Candidate.typeName? (Path.relative root (Path.down root names)) =
        Candidate.dotted? (Path.below root names) := by
      rw [hrelative, Candidate.typeName?_eq, Path.isDefinitionName_below hr proper, if_pos hd, String.toList_ofList]
    rw [if_pos hd, if_pos hd, htype]
    cases Candidate.dotted? (Path.below root names) <;> rfl
  · rw [if_neg hd, if_neg hd]
    rfl

/-- Names that lead down to a file. -/
def FileBelow (tree : FileTree) (root : String) (names : List String) : Prop :=
  ∃ place, tree.LeadsDown root names place ∧ ¬ tree.isDirectory place = true

theorem LeadsDown.of_suffix {others : List String} (way : tree.LeadsDown root others place)
    (h : names <:+ others) : ∃ above, tree.LeadsDown root names above := by
  induction way with
  | root hr =>
    rw [List.suffix_nil.1 h]
    exact ⟨_, .root hr⟩
  | child way hd shown hr ih =>
    rcases List.suffix_cons_iff.1 h with rfl | h
    · exact ⟨_, .child way hd shown hr⟩
    · exact ih h

theorem LeadsDown.eq_or_child {others : List String} {place below : Location}
    (way : tree.LeadsDown root names place) (h : names <:+ others) (further : tree.LeadsDown root others below) :
    others = names ∨ tree.isDirectory place = true ∧ ∃ name ∈ tree.children place, (name :: names) <:+ others := by
  obtain ⟨lead, rfl⟩ := h
  rcases List.eq_nil_or_concat' lead with rfl | ⟨lead', name, rfl⟩
  · exact .inl rfl
  · right
    have hsuffix : name :: names <:+ (lead' ++ [name]) ++ names := ⟨lead', by simp⟩
    obtain ⟨below', hbelow⟩ := further.of_suffix hsuffix
    cases hbelow with
    | child way' hd shown _ =>
      cases way.eq way'
      exact ⟨hd, name, shown, hsuffix⟩

theorem LeadsDown.ne_empty (way : tree.LeadsDown root names place) : root ≠ "" := by
  obtain ⟨above, hr⟩ := way.of_suffix (List.nil_suffix)
  rintro rfl
  cases hr with
  | root hr => exact (route_eq_ok_iff.1 (route_of_resolve hr)).2.2.1 rfl

/-- Different children of a directory have no file in common. -/
theorem nodup_files {files : String → List (List String)} {here : Standing}
    (hfiles : ∀ name ∈ tree.children here.place, (files name).Nodup ∧
      ∀ other ∈ files name, (name :: names) <:+ other) :
    ((tree.children here.place).flatMap files).Nodup := by
  refine List.nodup_flatMap.2 ⟨fun name hm => (hfiles name hm).1, ?_⟩
  refine (tree.nodup_children here.place).pairwise_of_forall_ne fun first hf second hs hne => ?_
  intro other ho ho'
  have hfirst := (hfiles first hf).2 other ho
  have hsecond := (hfiles second hs).2 other ho'
  have he := (List.suffix_of_suffix_length_le hfirst hsecond (by simp)).eq_of_length (by simp)
  exact hne (List.cons.inj he).1

section WellFormed

variable (wellFormed : tree.WellFormed)
include wellFormed

theorem LeadsDown.proper (way : tree.LeadsDown root names place) : ∀ name ∈ names, Path.ProperName name := by
  induction way with
  | root => simp
  | child _ _ shown _ ih =>
    intro other hm
    rcases List.mem_cons.1 hm with rfl | hm
    · exact wellFormed.properName shown
    · exact ih other hm

/-- At a file the walk comes to nothing else. -/
theorem WellFormed.mem_file_iff {entered : List Entry} {here : Standing}
    (comes : tree.ComesTo root names (.ok here) entered) (hd : ¬ tree.isDirectory here.place = true)
    (other : List String) : other ∈ [names] ↔ names <:+ other ∧ tree.FileBelow root other := by
  have way := wellFormed.leadsDown_of_comesTo comes rfl
  rw [List.mem_singleton]
  constructor
  · rintro rfl
    exact ⟨List.suffix_rfl, here.place, way, hd⟩
  · rintro ⟨hsuffix, place, further, _⟩
    exact (way.eq_or_child hsuffix further).resolve_right fun h => hd h.1

theorem WellFormed.exists_child_iff {entered : List Entry} {here : Standing}
    (comes : tree.ComesTo root names (.ok here) entered) (hd : tree.isDirectory here.place = true)
    (other : List String) :
    (∃ name ∈ tree.children here.place, (name :: names) <:+ other ∧ tree.FileBelow root other) ↔
      names <:+ other ∧ tree.FileBelow root other := by
  have way := wellFormed.leadsDown_of_comesTo comes rfl
  constructor
  · rintro ⟨name, _, hsuffix, file⟩
    exact ⟨(List.suffix_cons name names).trans hsuffix, file⟩
  · rintro ⟨hsuffix, place, further, hfile⟩
    rcases way.eq_or_child hsuffix further with rfl | ⟨_, name, hm, hbelow⟩
    · exact absurd (further.eq way ▸ hd) hfile
    · exact ⟨name, hm, hbelow, place, further, hfile⟩

/-- A walk that succeeds comes to each file once. -/
theorem WellFormed.exists_files {reached : Except FileFault Standing} {entered : List Entry}
    (h : (tree.walk root).failure = none) (comes : tree.ComesTo root names reached entered) :
    ∃ files : List (List String), files.Nodup ∧
      (∀ other, other ∈ files ↔ names <:+ other ∧ tree.FileBelow root other) ∧
      (tree.walkFrom root (Path.down root names) reached entered).found =
        files.flatMap fun other => tree.candidatesAt (Path.down root other) (Path.below root other) := by
  refine ComesTo.induction_of_success h ?directory ?archive ?file comes
  case directory =>
    intro names here entered comes opens ih
    have hall := comes.success h
    rw [opens.walkFrom, Walk.failure_each_eq_none_iff] at hall
    choose! files hnodup hmem hfound using ih
    refine ⟨(tree.children here.place).flatMap files, ?_, fun other => ?_, ?_⟩
    · exact nodup_files fun name hm => ⟨hnodup name hm, fun other ho => ((hmem name hm other).1 ho).1⟩
    · rw [List.mem_flatMap, ← wellFormed.exists_child_iff comes opens.directory]
      exact exists_congr fun name => and_congr_right fun hm => hmem name hm other
    · rw [opens.walkFrom, Walk.found_each hall, List.flatMap_assoc]
      exact List.flatMap_congr fun name hm => hfound name hm
  case archive =>
    intro names here entered comes hd ha _
    refine ⟨[names], List.nodup_singleton names, wellFormed.mem_file_iff comes hd, ?_⟩
    rw [walkFrom_of_archive hd ha, found_walkArchive ha (Path.below root names)]
    simp
  case file =>
    intro names here entered comes hd ha
    have way := wellFormed.leadsDown_of_comesTo comes rfl
    refine ⟨[names], List.nodup_singleton names, wellFormed.mem_file_iff comes hd, ?_⟩
    rw [walkFrom_of_file hd ha, found_walkFile tree way.ne_empty (way.proper wellFormed) ha]
    simp

theorem WellFormed.exists_archive (h : (tree.walk root).failure = none) (file : tree.FileBelow root names)
    (ha : Archive.isArchiveName (Path.down root names) = true) :
    ∃ archive, tree.openArchive (Path.down root names) = .ok archive := by
  obtain ⟨place, way, hd⟩ := file
  obtain ⟨here, entered, comes, rfl⟩ := wellFormed.comesTo_of_leadsDown h way
  have hc := complaint_of_success (comes.success h)
  rw [complaint, if_neg hd, if_pos ha, walkArchive] at hc
  split at hc
  next => cases hc
  next archive ho => exact ⟨archive, ho⟩

/-- What a walk finds that succeeds. The paths below the root that lead to files through directories can be
listed, each once, so that what is found is what there is to be found at each of them: the definitions that an
archive lists, under their own names, and otherwise the file if it is a definition. -/
theorem WellFormed.found_of_walk (h : (tree.walk root).failure = none) :
    ∃ files : List (List String), (files.map (Path.down root)).Nodup ∧
      (∀ names, names ∈ files ↔ tree.FileBelow root names) ∧
      (∀ names ∈ files, Archive.isArchiveName (Path.down root names) = true →
        ∃ archive, tree.openArchive (Path.down root names) = .ok archive) ∧
      (tree.walk root).found =
        files.flatMap fun names => tree.candidatesAt (Path.down root names) (Path.below root names) := by
  obtain ⟨files, hnodup, hmem, hfound⟩ := wellFormed.exists_files h .root
  have hfile : ∀ names, names ∈ files ↔ tree.FileBelow root names := by
    intro names
    rw [hmem]
    exact and_iff_right List.nil_suffix
  refine ⟨files, ?_, hfile, fun names hm => wellFormed.exists_archive h ((hfile names).1 hm), hfound⟩
  refine hnodup.map_on fun names hm others hm' he => ?_
  obtain ⟨_, way, _⟩ := (hfile names).1 hm
  obtain ⟨_, way', _⟩ := (hfile others).1 hm'
  exact Path.down_injective way.ne_empty (way.proper wellFormed) (way'.proper wellFormed) he

end WellFormed

/-- Directories called as archives and definitions are, an archive in them, a definition and a link to it. -/
def mixedTree : FileTree where
  entries := [.of ["lib"] .directory, .of ["a.jar", "lib"] .directory, .of ["A.class", "a.jar", "lib"] .directory,
    .of ["c.Zip", "A.class", "a.jar", "lib"] (.file (.archive ⟨[⟨"p/B.class", [], none⟩, ⟨"p/", [], none⟩,
      ⟨"p/B.class", [], none⟩, ⟨".class", [], none⟩]⟩)),
    .of ["C.CLASS", "lib"] (.file (.bytes [])), .of ["D.class", "lib"] (.link "C.CLASS")]
  current := []
  distinct := by decide +kernel

/-- Of an archive two directories down only the names of its entries count. -/
theorem found_of_mixedTree : mixedTree.WellFormed ∧ (mixedTree.walk "lib").failure = none ∧
    (mixedTree.walk "lib").found = [⟨"p.B", .entry "lib/a.jar/A.class/c.Zip" "p/B.class"⟩,
      ⟨"C", .file "lib/C.CLASS"⟩, ⟨"D", .file "lib/D.class"⟩] ∧
    ∃ files : List (List String), (files.map (Path.down "lib")).Nodup ∧
      (∀ names, names ∈ files ↔ mixedTree.FileBelow "lib" names) ∧
      (∀ names ∈ files, Archive.isArchiveName (Path.down "lib" names) = true →
        ∃ archive, mixedTree.openArchive (Path.down "lib" names) = .ok archive) ∧
      (mixedTree.walk "lib").found =
        files.flatMap fun names => mixedTree.candidatesAt (Path.down "lib" names) (Path.below "lib" names) := by
  have wellFormed : mixedTree.WellFormed := ⟨by decide +kernel, by decide +kernel⟩
  have hsuccess : (mixedTree.walk "lib").failure = none := by decide +kernel
  exact ⟨wellFormed, hsuccess, by decide +kernel, wellFormed.found_of_walk hsuccess⟩

end FileTree

end SerialManifest

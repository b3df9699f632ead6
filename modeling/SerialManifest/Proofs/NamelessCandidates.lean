import SerialManifest.Eligibility
import SerialManifest.Proofs.ClasspathIndex
import SerialManifest.Proofs.WalkFindings

namespace SerialManifest

namespace Text

theorem afterLast_of_not_mem {sep : Char} {text : List Char} (h : sep ∉ text) : afterLast sep text = text := by
  rw [afterLast, split_of_not_mem h]
  rfl

theorem afterLast_append {sep : Char} {text : List Char} (h : sep ∉ text) (lead : List Char) :
    afterLast sep (lead ++ sep :: text) = text := by
  rw [afterLast, split_append_sep, split_of_not_mem h, List.getLastD_concat]

end Text

namespace Candidate

/-- The suffix of definitions with letters of either case. -/
def IsSuffix (text : List Char) : Prop :=
  text.map Char.toLower = suffix

/-- Behind the last slash there is nothing but the suffix of definitions. -/
def Nameless (text : List Char) : Prop :=
  IsSuffix (Text.afterLast '/' text)

instance (text : List Char) : Decidable (Nameless text) :=
  inferInstanceAs (Decidable (_ = suffix))

def dots (text : List Char) : List Char :=
  text.map fun c => if c = '/' ∨ c = '\\' then '.' else c

variable {text last : List Char}

theorem IsSuffix.length_eq (h : IsSuffix last) : last.length = 6 := by
  rw [← List.length_map Char.toLower, h]
  rfl

theorem IsSuffix.noSlash (h : IsSuffix last) : '/' ∉ last := by
  intro hm
  have hlower : Char.toLower '/' ∈ last.map Char.toLower := List.mem_map_of_mem hm
  rw [h] at hlower
  revert hlower
  decide

/-- There are two ways to be called by nothing but the suffix: with something in front of it, or without. -/
theorem nameless_iff :
    Nameless text ↔ ∃ last, IsSuffix last ∧ (text = last ∨ ∃ lead, text = lead ++ '/' :: last) := by
  constructor
  · exact fun h => ⟨_, h, Text.eq_or_append_afterLast '/' text⟩
  · rintro ⟨last, h, rfl | ⟨lead, rfl⟩⟩
    · rwa [Nameless, Text.afterLast_of_not_mem h.noSlash]
    · rwa [Nameless, Text.afterLast_append h.noSlash]

theorem IsSuffix.nameless_append (h : IsSuffix last) (lead : List Char) : Nameless (lead ++ '/' :: last) :=
  nameless_iff.2 ⟨last, h, .inr ⟨lead, rfl⟩⟩

theorem Nameless.suffix_lower (h : Nameless text) : suffix <:+ text.map Char.toLower := by
  obtain ⟨last, hs, rfl | ⟨lead, rfl⟩⟩ := nameless_iff.1 h
  · exact hs ▸ List.suffix_rfl
  · rw [List.map_append, List.map_cons, hs]
    exact ⟨lead.map Char.toLower ++ [Char.toLower '/'], by simp⟩

theorem Nameless.isDefinitionName {name : String} (h : Nameless name.toList) : isDefinitionName name = true :=
  List.isSuffixOf_iff_suffix.2 h.suffix_lower

theorem Nameless.not_isArchiveName {name : String} (h : Nameless name.toList) :
    ¬ Archive.isArchiveName name = true := by
  have hapart : ∀ other ∈ Archive.suffixes, ¬ suffix <:+ other ∧ ¬ other <:+ suffix := by decide
  intro ha
  obtain ⟨other, ho, he⟩ := List.any_eq_true.1 ha
  rcases List.suffix_or_suffix_of_suffix h.suffix_lower (List.isSuffixOf_iff_suffix.1 he) with hs | hs
  · exact (hapart other ho).1 hs
  · exact (hapart other ho).2 hs

theorem Nameless.getLast?_ne_slash (h : Nameless text) : text.getLast? ≠ some '/' := by
  obtain ⟨last, hs, htext⟩ := nameless_iff.1 h
  obtain ⟨front, c, rfl⟩ : ∃ front c, last = front ++ [c] := by
    rcases List.eq_nil_or_concat' last with rfl | hc
    · cases hs
    · exact hc
  have hend : text.getLast? = some c := by
    rcases htext with rfl | ⟨lead, rfl⟩
    · exact List.getLast?_concat
    · rw [← List.cons_append, ← List.append_assoc, List.getLast?_concat]
  intro he
  cases hend.symm.trans he
  exact hs.noSlash (by simp)

theorem dotted?_of_isSuffix (h : IsSuffix last) : dotted? last = none := by
  simp [dotted?, h.length_eq]

/-- The slash in front of the suffix is the last thing of which a dot is made. -/
theorem dotted?_append (h : IsSuffix last) (lead : List Char) :
    dotted? (lead ++ '/' :: last) = some (String.ofList (dots lead ++ ['.'])) := by
  have hstem : (lead ++ '/' :: last).take ((lead ++ '/' :: last).length - 6) = lead ++ ['/'] := by
    rw [List.append_cons, List.length_append, h.length_eq, Nat.add_sub_cancel, List.take_left']
    rfl
  simp only [dotted?, hstem]
  simp [dots]

end Candidate

def Origin.Nameless : Origin → Prop
  | .file path => Candidate.Nameless path.toList
  | .entry _ name => Candidate.Nameless name.toList

instance (origin : Origin) : Decidable origin.Nameless :=
  match origin with
  | .file path => inferInstanceAs (Decidable (Candidate.Nameless path.toList))
  | .entry _ name => inferInstanceAs (Decidable (Candidate.Nameless name.toList))

namespace Path

variable {root name : String}

theorem below_cons_cons (root last dir : String) (outer : List String) :
    below root (last :: dir :: outer) = below root (dir :: outer) ++ '/' :: last.toList := by
  have hne : (dir :: outer).reverse.map String.toList ≠ [] := by simp
  rw [below, if_neg (List.cons_ne_nil _ _), List.reverse_cons, List.map_append, List.map_singleton,
    Text.join_concat '/' hne, below, if_neg (List.cons_ne_nil _ _)]

theorem nameless_join_iff (proper : ProperName name) {path : String} (hp : path ≠ "") :
    Candidate.Nameless (join path name).toList ↔ Candidate.IsSuffix name.toList := by
  obtain ⟨lead, he⟩ := exists_join_eq proper hp
  rw [he, Candidate.Nameless, Text.afterLast_append proper.noSlash]

end Path

namespace FileTree

/-- What a walk finds although it is called by nothing but the suffix: a file at least two names below the
root, and an entry with a slash in its name. Its type is called as where it lies, with a dot behind. -/
inductive NamelessBelow (tree : FileTree) (root : String) : Candidate → Prop where
  | file {last dir : String} {outer : List String} (file : tree.FileBelow root (last :: dir :: outer))
    (suffix : Candidate.IsSuffix last.toList) : NamelessBelow tree root
      ⟨String.ofList (Candidate.dots (Path.below root (dir :: outer)) ++ ['.']),
        .file (Path.down root (last :: dir :: outer))⟩
  | entry {names : List String} {archive : Archive} {entry : String} {dir last : List Char}
    (file : tree.FileBelow root names) (isArchive : Archive.isArchiveName (Path.down root names) = true)
    (opens : tree.openArchive (Path.down root names) = .ok archive) (listed : entry ∈ archive.names)
    (lies : entry.toList = dir ++ '/' :: last) (suffix : Candidate.IsSuffix last) : NamelessBelow tree root
      ⟨String.ofList (Candidate.dots dir ++ ['.']), .entry (Path.down root names) entry⟩

variable {tree : FileTree} {root : String} {names : List String} {candidate : Candidate}

theorem NamelessBelow.getLast?_name (h : tree.NamelessBelow root candidate) :
    candidate.name.toList.getLast? = some '.' := by
  cases h with
  | file _ _ => simp
  | entry _ _ _ _ _ _ => simp

theorem mem_candidatesAt_of_archive {path : String} (ha : Archive.isArchiveName path = true) {below : List Char} :
    candidate ∈ tree.candidatesAt path below ↔ ∃ archive, tree.openArchive path = .ok archive ∧
      ∃ name ∈ archive.names, (name.toList.getLast? ≠ some '/' ∧ Candidate.isDefinitionName name = true) ∧
        ∃ typeName, Candidate.dotted? name.toList = some typeName ∧ ⟨typeName, .entry path name⟩ = candidate := by
  rw [candidatesAt, if_pos ha]
  cases tree.openArchive path with
  | error error => simp
  | ok archive =>
    simp only [List.mem_filterMap, List.mem_filter, Option.map_eq_some_iff, Except.ok.injEq, exists_eq_left',
      decide_eq_true_eq, and_assoc, Archive.names]

theorem mem_candidatesAt_of_file {path : String} (ha : ¬ Archive.isArchiveName path = true) {below : List Char} :
    candidate ∈ tree.candidatesAt path below ↔ Candidate.isDefinitionName path = true ∧
      ∃ typeName, Candidate.dotted? below = some typeName ∧ ⟨typeName, .file path⟩ = candidate := by
  rw [candidatesAt, if_neg ha]
  by_cases hn : Candidate.isDefinitionName path = true
  · simp only [hn, ↓reduceIte, Option.mem_toList, Option.map_eq_some_iff, true_and]
  · simp [hn]

theorem namelessBelow_of_entry (file : tree.FileBelow root names)
    (ha : Archive.isArchiveName (Path.down root names) = true)
    (h : candidate ∈ tree.candidatesAt (Path.down root names) (Path.below root names))
    (nameless : candidate.origin.Nameless) : tree.NamelessBelow root candidate := by
  obtain ⟨archive, opens, name, listed, _, typeName, htype, rfl⟩ := (mem_candidatesAt_of_archive ha).1 h
  obtain ⟨last, hs, hlast | ⟨dir, hdir⟩⟩ := Candidate.nameless_iff.1 nameless
  · rw [hlast, Candidate.dotted?_of_isSuffix hs] at htype
    cases htype
  · rw [hdir, Candidate.dotted?_append hs] at htype
    cases htype
    exact .entry file ha opens listed hdir hs

section WellFormed

variable (wellFormed : tree.WellFormed)
include wellFormed

/-- All that a walk finds, also one that fails later, is to be found at files below its root. -/
theorem WellFormed.exists_file_of_mem_found {reached : Except FileFault Standing} {entered : List Entry}
    (comes : tree.ComesTo root names reached entered)
    (h : candidate ∈ (tree.walkFrom root (Path.down root names) reached entered).found) :
    ∃ names, tree.FileBelow root names ∧
      candidate ∈ tree.candidatesAt (Path.down root names) (Path.below root names) := by
  generalize hpath : Path.down root names = path at h
  induction path, reached, entered using walkFrom.induct tree root generalizing names with
  | case1 path entered => simp [walkFrom, Walk.failed] at h
  | case2 path entered fault hf =>
    rw [walkFrom.eq_2 _ _ _ _ _ hf] at h
    simp [Walk.failed] at h
  | case3 path entered here hd hs =>
    rw [walkFrom_of_unspelt hd (by simpa using hs)] at h
    simp [Walk.failed] at h
  | case4 path entered here hd hs hc =>
    rw [walkFrom_of_cycle hd (by simpa using hs) hc] at h
    simp [Walk.failed] at h
  | case5 path entered here hd hs hc ih =>
    subst hpath
    rw [walkFrom_of_directory hd (by simpa using hs) hc] at h
    obtain ⟨name, hm, hn⟩ := Walk.mem_found_each h
    exact ih name (.child comes ⟨hd, by simpa using hs, hc⟩ hm) rfl hn
  | case6 path entered here hd ha =>
    subst hpath
    rw [walkFrom_of_archive hd ha, found_walkArchive ha (Path.below root names)] at h
    exact ⟨names, ⟨here.place, wellFormed.leadsDown_of_comesTo comes rfl, hd⟩, h⟩
  | case7 path entered here hd ha =>
    subst hpath
    have way := wellFormed.leadsDown_of_comesTo comes rfl
    rw [walkFrom_of_file hd ha, found_walkFile tree way.ne_empty (way.proper wellFormed) ha] at h
    exact ⟨names, ⟨here.place, way, hd⟩, h⟩

theorem FileBelow.nameless_iff {last : String} {outer : List String} (file : tree.FileBelow root (last :: outer)) :
    Candidate.Nameless (Path.down root (last :: outer)).toList ↔ Candidate.IsSuffix last.toList := by
  obtain ⟨place, way, _⟩ := file
  have proper := way.proper wellFormed
  have houter := Path.down_ne_empty way.ne_empty fun other ho => proper other (List.mem_cons_of_mem last ho)
  exact Path.nameless_join_iff (proper last (by simp)) houter

theorem WellFormed.namelessBelow_of_file (file : tree.FileBelow root names)
    (ha : ¬ Archive.isArchiveName (Path.down root names) = true)
    (h : candidate ∈ tree.candidatesAt (Path.down root names) (Path.below root names))
    (nameless : candidate.origin.Nameless) : tree.NamelessBelow root candidate := by
  obtain ⟨_, typeName, htype, rfl⟩ := (mem_candidatesAt_of_file ha).1 h
  have nameless : Candidate.Nameless (Path.down root names).toList := nameless
  cases names with
  | nil =>
    have hs : Candidate.IsSuffix (Path.below root []) := nameless
    rw [Candidate.dotted?_of_isSuffix hs] at htype
    cases htype
  | cons last outer =>
    have hs := (file.nameless_iff wellFormed).1 nameless
    cases outer with
    | nil =>
      have hbelow : Path.below root [last] = last.toList := rfl
      rw [hbelow, Candidate.dotted?_of_isSuffix hs] at htype
      cases htype
    | cons dir outer =>
      rw [Path.below_cons_cons, Candidate.dotted?_append hs] at htype
      cases htype
      exact .file file hs

theorem WellFormed.exists_file_of_namelessBelow (h : tree.NamelessBelow root candidate) :
    candidate.origin.Nameless ∧ ∃ names, tree.FileBelow root names ∧
      candidate ∈ tree.candidatesAt (Path.down root names) (Path.below root names) := by
  cases h with
  | @file last dir outer file hs =>
    have nameless := (file.nameless_iff wellFormed).2 hs
    refine ⟨nameless, _, file, (mem_candidatesAt_of_file nameless.not_isArchiveName).2 ?_⟩
    refine ⟨nameless.isDefinitionName, _, ?_, rfl⟩
    rw [Path.below_cons_cons, Candidate.dotted?_append hs]
  | @entry names archive entry dir last file ha opens listed lies hs =>
    have nameless : Candidate.Nameless entry.toList := lies ▸ hs.nameless_append dir
    refine ⟨nameless, names, file, (mem_candidatesAt_of_archive ha).2 ⟨archive, opens, entry, listed, ?_, ?_⟩⟩
    · exact ⟨nameless.getLast?_ne_slash, nameless.isDefinitionName⟩
    · exact ⟨_, by rw [lies, Candidate.dotted?_append hs], rfl⟩

/-- What a walk makes of files and entries that are called by nothing but the suffix of definitions. It never
finds one at the top, whether it succeeds or not. Those further down are called as where they lie, with a dot
behind, and if the walk succeeds it finds them all, and they are indexed. So a walk that succeeds finds none just
if there are none but at the top. -/
theorem WellFormed.nameless_of_walk (root : String) :
    (∀ candidate ∈ (tree.walk root).found, candidate.origin.Nameless → tree.NamelessBelow root candidate) ∧
    (∀ candidate, tree.NamelessBelow root candidate →
      candidate.origin.Nameless ∧ candidate.name.toList.getLast? = some '.') ∧
    ((tree.walk root).failure = none →
      (∀ candidate, tree.NamelessBelow root candidate → candidate ∈ (tree.walk root).found ∧
        ∀ classpath : Classpath, (classpath.addRoot tree root).1.index.contains candidate.name = true) ∧
      ((∀ candidate ∈ (tree.walk root).found, ¬ candidate.origin.Nameless) ↔
        ∀ candidate, ¬ tree.NamelessBelow root candidate)) := by
  have hdeep : ∀ candidate ∈ (tree.walk root).found, candidate.origin.Nameless →
      tree.NamelessBelow root candidate := by
    intro candidate hm nameless
    obtain ⟨names, file, hc⟩ := wellFormed.exists_file_of_mem_found .root hm
    by_cases ha : Archive.isArchiveName (Path.down root names) = true
    · exact namelessBelow_of_entry file ha hc nameless
    · exact wellFormed.namelessBelow_of_file file ha hc nameless
  refine ⟨hdeep, fun candidate h => ⟨(wellFormed.exists_file_of_namelessBelow h).1, h.getLast?_name⟩, ?_⟩
  intro hsuccess
  have hfound : ∀ candidate, tree.NamelessBelow root candidate → candidate ∈ (tree.walk root).found := by
    intro candidate h
    obtain ⟨_, names, file, hc⟩ := wellFormed.exists_file_of_namelessBelow h
    obtain ⟨files, _, hmem, _, hfound⟩ := wellFormed.found_of_walk hsuccess
    rw [hfound]
    exact List.mem_flatMap.2 ⟨names, (hmem names).2 file, hc⟩
  refine ⟨fun candidate h => ⟨hfound candidate h, fun classpath => ?_⟩, fun hnone candidate h => ?_, ?_⟩
  · rw [TypeIndex.contains, List.contains_iff_mem]
    exact TypeIndex.mem_names_insertAll.2 (.inr ⟨candidate, hfound candidate h, rfl⟩)
  · exact hnone candidate (hfound candidate h) (wellFormed.exists_file_of_namelessBelow h).1
  · exact fun hnone candidate hm nameless => hnone candidate (hdeep candidate hm nameless)

end WellFormed

/-- Two files and two entries that are called by nothing but the suffix, one of each in a directory. -/
def suffixTree : FileTree where
  entries := [.of ["lib"] .directory, .of [".class", "lib"] (.file (.bytes [])), .of ["a", "lib"] .directory,
    .of [".CLASS", "a", "lib"] (.file (.bytes [])),
    .of ["j.jar", "lib"] (.file (.archive ⟨[⟨".class", [], none⟩, ⟨"p/.Class", [], none⟩]⟩))]
  current := []
  distinct := by decide +kernel

/-- Those in directories are found, are indexed, and may be governed. From the directory of the one file the walk
does not find it. -/
theorem found_of_suffixTree :
    suffixTree.walk "lib" = .of [⟨"a.", .file "lib/a/.CLASS"⟩, ⟨"p.", .entry "lib/j.jar" "p/.Class"⟩] ∧
      (∀ candidate ∈ (suffixTree.walk "lib").found, candidate.origin.Nameless) ∧
      (Classpath.empty.addRoot suffixTree "lib").1.index.names = ["a.", "p."] ∧
      (EligibilityRules.mk ["a"] "java.io.Serializable" []).governs "a." = true ∧
      suffixTree.walk "lib/a" = .of [] := by
  decide +kernel

theorem nameless_of_suffixTree : suffixTree.WellFormed ∧ (suffixTree.walk "lib").failure = none ∧
    suffixTree.NamelessBelow "lib" ⟨"a.", .file "lib/a/.CLASS"⟩ ∧
    (∀ classpath : Classpath, (classpath.addRoot suffixTree "lib").1.index.contains "a." = true) ∧
    ∀ candidate, ¬ suffixTree.NamelessBelow "lib/a" candidate := by
  have wellFormed : suffixTree.WellFormed := ⟨by decide +kernel, by decide +kernel⟩
  have hsuccess : (suffixTree.walk "lib").failure = none := by decide +kernel
  have hsuccess' : (suffixTree.walk "lib/a").failure = none := by decide +kernel
  obtain ⟨hdeep, _, hwhole⟩ := wellFormed.nameless_of_walk "lib"
  obtain ⟨_, _, hinner⟩ := wellFormed.nameless_of_walk "lib/a"
  have hfound : suffixTree.NamelessBelow "lib" ⟨"a.", .file "lib/a/.CLASS"⟩ :=
    hdeep _ (by decide +kernel) (by decide +kernel)
  obtain ⟨hlower, _⟩ := hwhole hsuccess
  obtain ⟨_, hindexed⟩ := hlower _ hfound
  refine ⟨wellFormed, hsuccess, hfound, hindexed, ?_⟩
  exact (hinner hsuccess').2.1 (by decide +kernel)

end FileTree

end SerialManifest

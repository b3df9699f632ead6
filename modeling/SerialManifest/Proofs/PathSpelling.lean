import SerialManifest.FileTree.Resolve

namespace SerialManifest

/-- `fewer` is `steps` without some of its stays, none of which was at the end. -/
inductive Slimmer : (steps fewer : List Step) → Prop where
  | nil : Slimmer [] []
  | keep {steps fewer : List Step} (step : Step) (h : Slimmer steps fewer) :
    Slimmer (step :: steps) (step :: fewer)
  | drop {steps fewer : List Step} (h : Slimmer steps fewer) (hne : fewer ≠ []) :
    Slimmer (.stay :: steps) fewer

theorem Slimmer.append_left {steps fewer : List Step} (h : Slimmer steps fewer) (first : List Step) :
    Slimmer (first ++ steps) (first ++ fewer) := by
  induction first with
  | nil => exact h
  | cons step first ih => exact .keep step ih

namespace FileTree

variable {tree : FileTree}

/-- Taking steps is taking them one by one, however many links may still be followed. -/
theorem follow_eq_advance (tree : FileTree) (missing : Missing) (links : Nat) (here : Standing)
    (steps : List Step) : ∃ jump, tree.follow missing links here steps = tree.advance missing jump here steps := by
  cases links with
  | zero => exact ⟨_, rfl⟩
  | succ links => exact ⟨_, rfl⟩

theorem onward_eq_advance (tree : FileTree) (here : Standing) (steps : List Step) :
    ∃ jump, tree.onward here steps = tree.advance .refuse jump here steps :=
  tree.follow_eq_advance .refuse here.links here steps

theorem route_eq_ok_iff {path : String} {route : Route} : FileTree.route path = .ok route ↔
    '\x00' ∉ path.toList ∧ ¬ longestPath < path.utf8ByteSize ∧ path ≠ "" ∧ Route.ofText path = route := by
  unfold FileTree.route
  by_cases hnul : '\x00' ∈ path.toList
  · simp [hnul]
  · by_cases hlong : longestPath < path.utf8ByteSize
    · simp only [List.contains_iff_mem, hnul, hlong, ↓reduceIte, reduceCtorEq, not_true_eq_false, false_and,
        and_false]
    · by_cases hempty : path = ""
      · simp [hempty]
      · simp only [List.contains_iff_mem, hnul, hlong, hempty, ↓reduceIte, beq_iff_eq, Except.ok.injEq,
          not_false_eq_true, ne_eq, true_and]

theorem route_eq_ok {path : String} {route : Route} (h : FileTree.route path = .ok route) : route = Route.ofText path :=
  (route_eq_ok_iff.1 h).2.2.2.symm

theorem reach_eq {path : String} (h : FileTree.route path = .ok (Route.ofText path)) :
    tree.reach path = tree.onward (tree.start (Route.ofText path)) (Route.ofText path).steps := by
  rw [reach, h]
  rfl

theorem advance_eq_error {missing : Missing} {jump : Standing → List Step → Except FileFault Standing}
    {here : Standing} {steps : List Step} (hd : tree.isDirectory here.place = false) (hne : steps ≠ []) :
    tree.advance missing jump here steps = .error .notADirectory := by
  cases steps with
  | nil => exact absurd rfl hne
  | cons step rest => simp [advance, hd]

/-- Stays between other steps change nothing, whether the path leads anywhere or not. -/
theorem advance_slimmer {jump jump' : Standing → List Step → Except FileFault Standing}
    (hj : ∀ here steps fewer, Slimmer steps fewer → jump here steps = jump' here fewer)
    {steps fewer : List Step} (h : Slimmer steps fewer) (here : Standing) :
    tree.advance .refuse jump here steps = tree.advance .refuse jump' here fewer := by
  induction h generalizing here with
  | nil => rfl
  | @keep steps fewer step h ih =>
    unfold advance
    split
    next hd =>
      cases step with
      | stay => exact ih here
      | closing => exact ih here
      | up => exact ih _
      | child name =>
        simp only [reduceCtorEq, false_and, ↓reduceIte]
        split
        · rfl
        · split
          · rfl
          · exact hj _ _ _ (h.append_left _)
          · exact ih _
    next => rfl
  | @drop steps fewer h hne ih =>
    -- a stay only asks for a directory, and the step behind it does so as well
    by_cases hd : tree.isDirectory here.place = true
    · rw [← ih here]
      simp [advance, hd]
    · have hn : tree.isDirectory here.place = false := by simpa using hd
      rw [advance_eq_error hn (List.cons_ne_nil _ _), advance_eq_error hn hne]

theorem follow_slimmer {steps fewer : List Step} (h : Slimmer steps fewer) (links : Nat) (here : Standing) :
    tree.follow .refuse links here steps = tree.follow .refuse links here fewer := by
  induction links generalizing here steps fewer with
  | zero => exact advance_slimmer (fun _ _ _ _ => rfl) h here
  | succ links ih => exact advance_slimmer (fun here _ _ h => ih h here) h here

end FileTree

theorem slimmer_counting {segments : List (List Char)} {last : List Char}
    (hl : segments.getLast? = some last) (hc : Path.counts last = true) :
    Slimmer ((segments.filter (· != [])).map Step.ofSegment)
      ((segments.filter Path.counts).map Step.ofSegment) := by
  induction segments with
  | nil => simp at hl
  | cons segment rest ih =>
    cases rest with
    | nil =>
      have he : segment = last := by simpa using hl
      subst he
      have hn : (segment != []) = true := by
        simp only [Path.counts, Bool.and_eq_true] at hc
        exact hc.1
      simp only [List.filter_cons, hn, hc, ↓reduceIte, List.filter_nil, List.map_cons, List.map_nil]
      exact .keep _ .nil
    | cons next others =>
      have hl' : (next :: others).getLast? = some last := by simpa [List.getLast?_cons_cons] using hl
      have hm : last ∈ (next :: others).filter Path.counts :=
        List.mem_filter.2 ⟨List.mem_of_getLast? hl', hc⟩
      have hr := ih hl'
      rw [List.filter_cons (p := Path.counts), List.filter_cons (p := (· != []))]
      by_cases hn : segment = []
      · simpa [hn, Path.counts] using hr
      · by_cases hs : segment = ['.']
        · have hne : ((next :: others).filter Path.counts).map Step.ofSegment ≠ [] := by
            intro hnil
            exact List.ne_nil_of_mem hm (List.map_eq_nil_iff.1 hnil)
          simpa [hs, Path.counts, Step.ofSegment] using hr.drop hne
        · simpa [hn, hs, Path.counts] using hr.keep (Step.ofSegment segment)

theorem getLast?_split_append {sep last : Char} (hs : last ≠ sep) (text : List Char) :
    ∃ segment, (Text.split sep (text ++ [last])).getLast? = some (segment ++ [last]) := by
  induction text with
  | nil => exact ⟨[], by simp [Text.split, hs]⟩
  | cons c rest ih =>
    obtain ⟨segment, hl⟩ := ih
    simp only [List.cons_append, Text.split]
    cases hp : Text.split sep (rest ++ [last]) with
    | nil => exact absurd hp (Text.split_ne_nil sep _)
    | cons piece pieces =>
      rw [hp] at hl
      by_cases hc : c = sep
      · exact ⟨segment, by simpa [hc, List.getLast?_cons_cons] using hl⟩
      · cases pieces with
        | nil =>
          have he : piece = segment ++ [last] := by simpa using hl
          exact ⟨c :: segment, by simp [hc, he]⟩
        | cons next more => exact ⟨segment, by simpa [hc, List.getLast?_cons_cons] using hl⟩

namespace Archive

theorem toList_of_isArchiveName {path : String} (h : isArchiveName path = true) :
    ∃ text last, path.toList = text ++ [last] ∧ last ≠ '/' ∧ last ≠ '.' := by
  obtain ⟨suffix, hs, he⟩ := List.any_eq_true.1 h
  obtain ⟨lead, hl⟩ := List.isSuffixOf_iff_suffix.1 he
  have hne : path.toList ≠ [] := by
    intro hn
    rw [hn] at hl
    rcases List.mem_cons.1 hs with rfl | hs
    · simp at hl
    · cases List.mem_singleton.1 hs
      simp at hl
  obtain ⟨text, last, ht⟩ : ∃ text last, path.toList = text ++ [last] :=
    ⟨_, _, (List.dropLast_concat_getLast hne).symm⟩
  have hlast : last.toLower = 'r' ∨ last.toLower = 'p' := by
    rw [ht, List.map_append, List.map_cons, List.map_nil] at hl
    have hg := congrArg List.getLast? hl
    rcases List.mem_cons.1 hs with rfl | hs
    · left
      simpa using hg.symm
    · right
      cases List.mem_singleton.1 hs
      simpa using hg.symm
  refine ⟨text, last, ht, ?_, ?_⟩
  · rintro rfl
    revert hlast
    decide
  · rintro rfl
    revert hlast
    decide

end Archive

theorem split_cons_of_segments {path : String} {first : List Char} {rest : List (List Char)}
    (h : Path.segments path = (first, rest)) : Text.split '/' path.toList = first :: rest := by
  unfold Path.segments at h
  cases hs : Text.split '/' path.toList with
  | nil => exact absurd hs (Text.split_ne_nil '/' _)
  | cons piece pieces =>
    simp only [hs, Prod.mk.injEq] at h
    rw [h.1, h.2]

theorem Path.isAbsolute_eq {path : String} (h : path ≠ "") :
    Path.isAbsolute path = ((Path.segments path).1 == []) := by
  cases hs : path.toList with
  | nil => exact absurd (String.toList_eq_nil_iff.1 hs) h
  | cons c rest =>
    by_cases hc : c = '/'
    · simp [Path.isAbsolute, Path.segments, hs, Text.split, hc]
    · cases hp : Text.split '/' rest <;>
        simp [Path.isAbsolute, Path.segments, hs, Text.split, hc, hp]

/-- A path that can be looked up and names an archive. -/
structure ArchivePath (path : String) : Prop where
  named : Archive.isArchiveName path = true
  route : FileTree.route path = .ok (Route.ofText path)

namespace ArchivePath

variable {path other : String}

theorem ne_empty (h : ArchivePath path) : path ≠ "" := by
  rintro rfl
  obtain ⟨text, last, ht, _⟩ := Archive.toList_of_isArchiveName h.named
  simp at ht

theorem key_eq (h : ArchivePath path) :
    Path.key path = (Path.segments path).1 :: (Path.segments path).2.filter Path.counts := by
  simp [Path.key, h.ne_empty]

theorem getLast?_split (h : ArchivePath path) :
    ∃ segment, (Text.split '/' path.toList).getLast? = some segment ∧ Path.counts segment = true := by
  obtain ⟨text, last, ht, hslash, hdot⟩ := Archive.toList_of_isArchiveName h.named
  obtain ⟨segment, hl⟩ := getLast?_split_append hslash text
  refine ⟨segment ++ [last], ht ▸ hl, ?_⟩
  have hne : segment ++ [last] ≠ ['.'] := by
    intro he
    have := congrArg List.getLast? he
    exact hdot (by simpa using this)
  simpa [Path.counts] using hne

theorem absolute_eq (h : ArchivePath path) :
    (Route.ofText path).absolute = ((Path.key path).head? == some []) := by
  rw [h.key_eq]
  exact Path.isAbsolute_eq h.ne_empty

theorem steps_slimmer (h : ArchivePath path) :
    Slimmer (Route.ofText path).steps (((Path.key path).filter (· != [])).map Step.ofSegment) := by
  obtain ⟨last, hl, hc⟩ := h.getLast?_split
  have hn : last ≠ [] := by
    rintro rfl
    simp [Path.counts] at hc
  have hsteps : (Route.ofText path).steps =
      ((Text.split '/' path.toList).filter (· != [])).map Step.ofSegment := by
    simp [Route.ofText, hl, hn]
  obtain ⟨⟨first, rest⟩, hp⟩ : ∃ parts, Path.segments path = parts := ⟨_, rfl⟩
  have hs := split_cons_of_segments hp
  rw [hsteps, h.key_eq, hp, hs]
  rw [hs] at hl
  cases rest with
  | nil =>
    have he : first = last := by simpa using hl
    simpa [he, hn] using Slimmer.keep (Step.ofSegment last) .nil
  | cons next others =>
    have hl' : (next :: others).getLast? = some last := by simpa [List.getLast?_cons_cons] using hl
    have hr := slimmer_counting hl' hc
    have hf : ((next :: others).filter Path.counts).filter (· != []) =
        (next :: others).filter Path.counts := by
      rw [List.filter_eq_self]
      intro segment hm
      have hcount := (List.mem_filter.1 hm).2
      simp only [Path.counts, Bool.and_eq_true] at hcount
      exact hcount.1
    rw [List.filter_cons (x := first), List.filter_cons (x := first), hf]
    split
    · exact hr.append_left [Step.ofSegment first]
    · exact hr

theorem resolve_eq {tree : FileTree} (h : ArchivePath path) :
    tree.resolve path = (tree.follow .refuse linkLimit
      (.fresh (if (Path.key path).head? == some [] then [] else tree.current))
      (((Path.key path).filter (· != [])).map Step.ofSegment)).map (·.place) := by
  rw [FileTree.resolve, FileTree.reach_eq h.route, FileTree.onward, FileTree.start, h.absolute_eq,
    FileTree.follow_slimmer h.steps_slimmer]
  rfl

/-- Archives whose paths have one key are the same archive, if there is one. -/
theorem openArchive_eq_ok {tree : FileTree} {archive : Archive} (h : ArchivePath path)
    (ho : ArchivePath other) (hk : Path.key path = Path.key other)
    (hopen : tree.openArchive other = .ok archive) : tree.openArchive path = .ok archive := by
  have hr : tree.resolve path = tree.resolve other := by rw [h.resolve_eq, ho.resolve_eq, hk]
  unfold FileTree.openArchive at hopen ⊢
  rw [hr]
  split at hopen
  next => cases hopen
  next place _ => split at hopen <;> simp_all

end ArchivePath

end SerialManifest

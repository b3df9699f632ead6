import SerialManifest.Proofs.WalkDescent

namespace SerialManifest

namespace Text

/-- A suffix without slashes is looked for behind the last slash. -/
theorem endsInAnyCase_append {suffix : List Char} (hs : '/' ∉ suffix) (lead text : List Char) :
    endsInAnyCase suffix (lead ++ '/' :: text) = endsInAnyCase suffix text := by
  have hslash : Char.toLower '/' = '/' := by decide
  rw [Bool.eq_iff_iff, endsInAnyCase, endsInAnyCase, List.isSuffixOf_iff_suffix, List.isSuffixOf_iff_suffix,
    List.map_append, List.map_cons, hslash]
  constructor
  · intro h
    rcases List.suffix_or_suffix_of_suffix h (List.suffix_append _ _) with hshort | hlong
    · exact (List.suffix_cons_iff.1 hshort).resolve_left fun he => hs (he ▸ List.mem_cons_self)
    · exact absurd (hlong.subset List.mem_cons_self) hs
  · intro h
    exact h.trans ((List.suffix_cons '/' _).trans (List.suffix_append _ _))

theorem join_concat (sep : Char) {pieces : List (List Char)} (h : pieces ≠ []) (piece : List Char) :
    join sep (pieces ++ [piece]) = join sep pieces ++ sep :: piece := by
  induction pieces with
  | nil => exact absurd rfl h
  | cons first others ih =>
    cases others with
    | nil => rfl
    | cons next more =>
      have hr := ih (List.cons_ne_nil next more)
      simp only [List.cons_append, join] at hr ⊢
      rw [hr]
      simp

theorem eq_or_append_afterLast (sep : Char) (text : List Char) :
    text = afterLast sep text ∨ ∃ lead, text = lead ++ sep :: afterLast sep text := by
  have hsplit := List.dropLast_concat_getLast (split_ne_nil sep text)
  have hlast : (split sep text).getLast (split_ne_nil sep text) = afterLast sep text := by
    rw [afterLast, List.getLastD_eq_getLast?, List.getLast?_eq_some_getLast (split_ne_nil sep text)]
    rfl
  have hjoin := join_split sep text
  rw [← hsplit, hlast] at hjoin
  by_cases hne : (split sep text).dropLast = []
  · rw [hne] at hjoin
    exact .inl hjoin.symm
  · rw [join_concat sep hne] at hjoin
    exact .inr ⟨_, hjoin.symm⟩

end Text

namespace Candidate

/-- The type name that a text stands for: without its last six characters and with dots for slashes of both
kinds, unless nothing is left. -/
def dotted? (text : List Char) : Option String :=
  let stem := text.take (text.length - 6)
  if stem = [] then none else some (String.ofList (stem.map fun c => if c = '/' ∨ c = '\\' then '.' else c))

theorem typeName?_eq (relative : String) :
    typeName? relative = if isDefinitionName relative then dotted? relative.toList else none := by
  have hdots : ∀ stem : List Char, Text.replace '\\' '.' (Text.replace '/' '.' stem) =
      stem.map fun c => if c = '/' ∨ c = '\\' then '.' else c := by
    intro stem
    rw [Text.replace, Text.replace, List.map_map]
    refine List.map_congr_left fun c _ => ?_
    by_cases hc : c = '/'
    · simp [hc]
    · simp [hc]
  have hlength : suffix.length = 6 := rfl
  unfold typeName? dotted?
  simp only [hdots, hlength]
  by_cases hn : isDefinitionName relative = true
  · by_cases hs : relative.toList.take (relative.toList.length - 6) = []
    · rw [if_neg (fun h => h.2 hs), if_pos hn, if_pos hs]
    · rw [if_pos ⟨hn, hs⟩, if_pos hn, if_neg hs]
  · rw [if_neg (fun h => hn h.1), if_neg hn]

theorem isDefinitionName_of_append {path : String} {lead text : List Char}
    (h : path.toList = lead ++ '/' :: text) : isDefinitionName path = isDefinitionName (String.ofList text) := by
  rw [isDefinitionName, isDefinitionName, h, Text.endsInAnyCase_append (by decide), String.toList_ofList]

end Candidate

namespace Path

variable {root path name : String} {names outer : List String}

/-- The segments of a path, without an empty one at its end. -/
def pieces (path : String) : List (List Char) :=
  let segments := Text.split '/' path.toList
  if segments.getLast? = some [] then segments.dropLast else segments

theorem split_join (proper : ProperName name) (hp : path ≠ "") :
    Text.split '/' (join path name).toList = pieces path ++ [name.toList] := by
  have hname := Text.split_of_not_mem proper.noSlash
  rw [join_eq proper hp]
  by_cases hs : path.toList.getLast? = some '/'
  · obtain ⟨text, ht⟩ := List.getLast?_eq_some_iff.1 hs
    have hpieces : pieces path = Text.split '/' text := by
      simp [pieces, ht, Text.split_append_sep, Text.split]
    have hjoin : (path ++ name).toList = text ++ '/' :: name.toList := by
      simp [ht]
    rw [if_pos hs, hjoin, Text.split_append_sep, hname, hpieces]
  · have hpieces : pieces path = Text.split '/' path.toList := by
      have hne : path.toList ≠ [] := fun he => hp (String.toList_eq_nil_iff.1 he)
      have hlast := List.dropLast_concat_getLast hne
      have hopen : path.toList.getLast hne ≠ '/' := fun he =>
        hs (by rw [List.getLast?_eq_some_getLast hne, he])
      obtain ⟨segment, hl⟩ := getLast?_split_append hopen path.toList.dropLast
      rw [hlast] at hl
      simp [pieces, hl]
    have hjoin : (path ++ "/" ++ name).toList = path.toList ++ '/' :: name.toList := by
      simp
    rw [if_neg hs, hjoin, Text.split_append_sep, hname, hpieces]

theorem pieces_join (proper : ProperName name) (hp : path ≠ "") :
    pieces (join path name) = pieces path ++ [name.toList] := by
  have hne : name.toList ≠ [] := fun he => proper.nonempty (String.toList_eq_nil_iff.1 he)
  rw [pieces, split_join proper hp]
  simp [hne]

theorem down_ne_empty (hr : root ≠ "") (proper : ∀ name ∈ names, ProperName name) : down root names ≠ "" := by
  induction names with
  | nil => exact hr
  | cons name outer ih =>
    have hne := ih fun other ho => proper other (List.mem_cons_of_mem name ho)
    rw [down, join_eq (proper name List.mem_cons_self) hne]
    split <;> simp [hne]

theorem pieces_down (hr : root ≠ "") (proper : ∀ name ∈ names, ProperName name) :
    pieces (down root names) = pieces root ++ names.reverse.map String.toList := by
  induction names with
  | nil => simp [down]
  | cons name outer ih =>
    have houter : ∀ other ∈ outer, ProperName other := fun other ho => proper other (List.mem_cons_of_mem name ho)
    rw [down, pieces_join (proper name List.mem_cons_self) (down_ne_empty hr houter), ih houter]
    simp

theorem down_injective (hr : root ≠ "") {others : List String} (proper : ∀ name ∈ names, ProperName name)
    (proper' : ∀ name ∈ others, ProperName name) (h : down root names = down root others) : names = others := by
  have hpieces := congrArg pieces h
  rw [pieces_down hr proper, pieces_down hr proper', List.append_cancel_left_eq] at hpieces
  exact List.reverse_injective (List.map_injective_iff.2 (fun _ _ => String.toList_injective) hpieces)

theorem exists_join_eq (proper : ProperName name) (hp : path ≠ "") :
    ∃ lead, (join path name).toList = lead ++ '/' :: name.toList := by
  rw [join_eq proper hp]
  by_cases hs : path.toList.getLast? = some '/'
  · obtain ⟨text, ht⟩ := List.getLast?_eq_some_iff.1 hs
    exact ⟨text, by simp [ht]⟩
  · exact ⟨path.toList, by simp [hs]⟩

/-- The path of a file below the root, and the name of the root if that is the file. -/
def below (root : String) (names : List String) : List Char :=
  if names = [] then Text.afterLast '/' root.toList else Text.join '/' (names.reverse.map String.toList)

theorem below_cons (root name : String) (outer : List String) : below root (name :: outer) = name.toList ∨
    ∃ lead, below root (name :: outer) = lead ++ '/' :: name.toList := by
  rw [below, if_neg (List.cons_ne_nil name outer), List.reverse_cons, List.map_append]
  by_cases ho : outer = []
  · subst ho
    exact .inl rfl
  · refine .inr ⟨_, Text.join_concat '/' ?_ name.toList⟩
    simpa using ho

theorem isDefinitionName_below (hr : root ≠ "") (proper : ∀ name ∈ names, ProperName name) :
    Candidate.isDefinitionName (String.ofList (below root names)) =
      Candidate.isDefinitionName (down root names) := by
  cases names with
  | nil =>
    rcases Text.eq_or_append_afterLast '/' root.toList with he | ⟨lead, he⟩
    · simp only [below, down, ↓reduceIte, ← he, String.ofList_toList]
    · exact (Candidate.isDefinitionName_of_append he).symm
  | cons name outer =>
    have houter := down_ne_empty hr fun other ho => proper other (List.mem_cons_of_mem name ho)
    obtain ⟨lead, he⟩ := exists_join_eq (proper name List.mem_cons_self) houter
    rw [down, Candidate.isDefinitionName_of_append he]
    rcases below_cons root name outer with hb | ⟨lead', hb⟩
    · rw [hb]
    · rw [Candidate.isDefinitionName_of_append (by rw [hb, String.toList_ofList])]

theorem last_of_counts {segment : List Char} (h : Text.afterLast '/' path.toList = segment)
    (hc : counts segment = true) : last path = segment := by
  obtain ⟨⟨first, rest⟩, hp⟩ : ∃ parts, segments path = parts := ⟨_, rfl⟩
  have hs := split_cons_of_segments hp
  rw [Text.afterLast, hs] at h
  rw [last, steps, hp]
  cases hr : rest.reverse with
  | nil =>
    rw [List.reverse_eq_nil_iff.1 hr] at h
    exact h
  | cons inner others =>
    have hrest : rest = others.reverse ++ [inner] := by simpa using congrArg List.reverse hr
    have hinner : inner = segment := by
      rwa [hrest, ← List.cons_append, List.getLastD_concat] at h
    rw [trimmed, hinner, List.dropWhile_cons_of_neg (by simp [hc])]
    rfl

/-- A root that is a definition goes by what stands behind its last slash. -/
theorem fileName?_of_isDefinitionName (h : Candidate.isDefinitionName root = true) :
    fileName? root = some (String.ofList (below root [])) := by
  obtain ⟨segment, hs⟩ : ∃ segment, Text.afterLast '/' root.toList = segment := ⟨_, rfl⟩
  have hname : Text.endsInAnyCase Candidate.suffix segment = true := by
    rcases Text.eq_or_append_afterLast '/' root.toList with he | ⟨lead, he⟩
    · rwa [← hs, ← he]
    · rwa [Candidate.isDefinitionName, he, Text.endsInAnyCase_append (by decide), hs] at h
  have hlong : 6 ≤ segment.length := by
    have hlen := (List.isSuffixOf_iff_suffix.1 hname).length_le
    rwa [List.length_map] at hlen
  have hne : ∀ short : List Char, short.length < 6 → segment ≠ short := by
    rintro short hshort rfl
    omega
  have hcounts : counts segment = true := by
    simp [counts, hne]
  have hlast := last_of_counts hs hcounts
  rw [fileName?, hlast, if_neg (by simp [hne]), below, if_pos rfl, hs]

theorem ProperName.counts (proper : ProperName name) : counts name.toList = true := by
  have hne : name.toList ≠ [] := fun he => proper.nonempty (String.toList_eq_nil_iff.1 he)
  have hdot : name.toList ≠ ['.'] := fun he => proper.notDot (String.toList_injective he)
  simp [Path.counts, hne, hdot]

/-- A slash at the end of a path adds no segment that counts. -/
theorem exists_pieces_eq (hr : root ≠ "") : ∃ rest, pieces root = (segments root).1 :: rest ∧
    key root = (segments root).1 :: rest.filter counts := by
  obtain ⟨⟨first, rest⟩, hp⟩ : ∃ parts, segments root = parts := ⟨_, rfl⟩
  have hs := split_cons_of_segments hp
  have hkey : key root = first :: rest.filter counts := by
    simp [key, hr, hp]
  rw [hkey, hp, pieces, hs]
  by_cases hlast : (first :: rest).getLast? = some []
  · obtain ⟨init, hinit⟩ := List.getLast?_eq_some_iff.1 hlast
    rw [if_pos hlast]
    rw [hinit, List.dropLast_concat]
    cases init with
    | nil =>
      have hjoin := Text.join_split '/' root.toList
      rw [hs, hinit] at hjoin
      exact absurd (String.toList_eq_nil_iff.1 hjoin.symm) hr
    | cons piece others =>
      obtain ⟨rfl, hrest⟩ := List.cons.inj hinit
      exact ⟨others, rfl, by simp [hrest, counts]⟩
  · rw [if_neg hlast]
    exact ⟨rest, rfl, rfl⟩

/-- Behind the segments of a path that count come those after it, and before them none that counts. -/
theorem exists_behind_append (rest further : List (List Char)) :
    ∃ idle, (∀ segment ∈ idle, counts segment = false) ∧
      behind (rest.filter counts) (rest ++ further) = some (idle ++ further) := by
  induction rest with
  | nil => exact ⟨[], by simp, by rw [List.filter_nil, behind]⟩
  | cons segment rest ih =>
    obtain ⟨idle, hidle, hbehind⟩ := ih
    by_cases hc : counts segment = true
    · refine ⟨idle, hidle, ?_⟩
      rw [List.filter_cons_of_pos hc, List.cons_append, behind, if_pos hc, if_pos rfl, hbehind]
    · rw [List.filter_cons_of_neg hc, List.cons_append]
      cases hnames : rest.filter counts with
      | nil =>
        refine ⟨segment :: rest, ?_, by rw [behind]; rfl⟩
        have hrest := List.filter_eq_nil_iff.1 hnames
        simpa [hc] using hrest
      | cons name names =>
        rw [hnames] at hbehind
        exact ⟨idle, hidle, by rw [behind, if_neg hc, hbehind]⟩

theorem trimmed_append {idle further : List (List Char)} (hidle : ∀ segment ∈ idle, counts segment = false)
    (hfurther : ∀ segment ∈ further, counts segment = true) : trimmed (idle ++ further) = further := by
  rw [trimmed, List.dropWhile_append_of_pos (by simpa using hidle)]
  cases further with
  | nil => rfl
  | cons first others => rw [List.dropWhile_cons_of_neg (by simp [hfurther first List.mem_cons_self])]

/-- The segments of a path below a root are those of the root and the names below it. -/
theorem split_down (hr : root ≠ "") (proper : ∀ name ∈ names, ProperName name) (hn : names ≠ []) :
    Text.split '/' (down root names).toList = pieces root ++ names.reverse.map String.toList := by
  cases names with
  | nil => exact absurd rfl hn
  | cons name outer =>
    have houter : ∀ other ∈ outer, ProperName other := fun other ho => proper other (List.mem_cons_of_mem name ho)
    rw [down, split_join (proper name List.mem_cons_self) (down_ne_empty hr houter), pieces_down hr houter]
    simp

/-- Of a path below a root the names below it are left, however the root is spelt. -/
theorem relative_down (hr : root ≠ "") (proper : ∀ name ∈ names, ProperName name) (hn : names ≠ []) :
    relative root (down root names) = String.ofList (below root names) := by
  obtain ⟨further, hf⟩ : ∃ further, names.reverse.map String.toList = further := ⟨_, rfl⟩
  have hne : further ≠ [] := by simpa [← hf] using hn
  have hfurther : ∀ segment ∈ further, counts segment = true := by
    intro segment hm
    obtain ⟨name, hname, rfl⟩ := List.mem_map.1 (hf ▸ hm)
    exact (proper name (List.mem_reverse.1 hname)).counts
  obtain ⟨rest, hpieces, hkey⟩ := exists_pieces_eq hr
  have hsegments : segments (down root names) = ((segments root).1, rest ++ further) := by
    rw [segments, split_down hr proper hn, hpieces, hf]
    rfl
  have hempty := down_ne_empty hr proper
  have hkeys : key (down root names) = key root ++ further := by
    rw [hkey, key, if_neg (by simpa using hempty), hsegments]
    simp [List.filter_eq_self.2 hfurther]
  obtain ⟨idle, hidle, hbehind⟩ := exists_behind_append rest further
  have hlast : trimmed ([] ++ further.reverse) = further.reverse :=
    trimmed_append (by simp) (by simpa using hfurther)
  rw [List.nil_append] at hlast
  rw [relative, if_neg (by simp [hkeys, hne]), strip?, hkey]
  simp only [hsegments, hbehind, Option.map_some, trimmed_append hidle hfurther, hlast, List.reverse_reverse]
  simp [hempty, below, hn, hf]

end Path

end SerialManifest

import Mathlib.Data.List.Perm.Subperm
import SerialManifest.Proofs.SettingsStatements

namespace SerialManifest.Settings

/-- The entries of a table in the order in which they are written, each name once. -/
structure TypeTable where
  entries : List (String × List String)
  distinct : (entries.map Prod.fst).Nodup

/-- Values for some of the settings. -/
structure Assignment where
  basePath : Option String
  manifestPath : Option String
  header : Option String
  namespaces : Option (List String)
  classpath : Option (List String)
  serializable : Option String
  excluded : Option (List String)
  versionField : Option String
  platformTypes : Option TypeTable
  leafTypes : Option (List String)
  quiet : Option Bool
  summaryFile : Option String

namespace Assignment

/-- The settings with their names and values, those without a value too. -/
def rows (given : Assignment) : List (String × Option Value) := [
  ("base_path", given.basePath.map .text),
  ("manifest_path", given.manifestPath.map .text),
  ("header", given.header.map .text),
  ("namespaces", given.namespaces.map .texts),
  ("classpath", given.classpath.map .texts),
  ("serializable", given.serializable.map .text),
  ("excluded", given.excluded.map .texts),
  ("version_field", given.versionField.map .text),
  ("platform_types", given.platformTypes.map fun table => .table table.entries),
  ("leaf_types", given.leafTypes.map .texts),
  ("quiet", given.quiet.map .flag),
  ("summary_file", given.summaryFile.map .text)]

/-- What a document has to bind to give these values. -/
def lines (given : Assignment) : List (String × Value) :=
  given.rows.filterMap fun row => row.2.map (row.1, ·)

/-- The given values, and the defaults of all other settings. -/
def settings (given : Assignment) (home : Option String) : Settings where
  basePath := given.basePath.getD (defaults home).basePath
  manifestPath := given.manifestPath.getD (defaults home).manifestPath
  header := given.header.getD (defaults home).header
  namespaces := given.namespaces.getD (defaults home).namespaces
  classpath := given.classpath.getD (defaults home).classpath
  serializable := given.serializable.getD (defaults home).serializable
  excluded := given.excluded.getD (defaults home).excluded
  versionField := given.versionField.getD (defaults home).versionField
  platformTypes := (given.platformTypes.map fun table => ordered table.entries).getD (defaults home).platformTypes
  leafTypes := given.leafTypes.getD (defaults home).leafTypes
  quiet := given.quiet.getD (defaults home).quiet
  summaryFile := given.summaryFile.or (defaults home).summaryFile

end Assignment

def knownNames : List String :=
  ["base_path", "manifest_path", "header", "namespaces", "classpath", "serializable", "excluded", "version_field",
    "platform_types", "leaf_types", "quiet", "summary_file"]

section Lookup

variable {α : Type} {entries : List (String × α)} {name : String} {value : α}

theorem lookup_eq_some_iff_mem (hn : (entries.map Prod.fst).Nodup) :
    entries.lookup name = some value ↔ (name, value) ∈ entries := by
  induction entries with
  | nil => simp
  | cons entry entries ih =>
    obtain ⟨other, held⟩ := entry
    rw [List.map_cons, List.nodup_cons] at hn
    by_cases hname : name = other
    · subst hname
      rw [List.lookup_cons_self, List.mem_cons, Option.some.injEq, Prod.mk.injEq]
      exact ⟨fun h => .inl ⟨rfl, h.symm⟩,
        fun h => h.elim (fun he => he.2.symm) fun hm => absurd (List.mem_map_of_mem hm) hn.1⟩
    · rw [List.lookup_cons, beq_eq_false_iff_ne.2 hname, ih hn.2, List.mem_cons, Prod.mk.injEq]
      exact ⟨.inr, fun h => h.resolve_left fun he => hname he.1⟩

end Lookup

namespace Value

def text? : Value → Option String
  | .text value => some value
  | _ => none

def flag? : Value → Option Bool
  | .flag value => some value
  | _ => none

def texts? : Value → Option (List String)
  | .texts values => some values
  | _ => none

def table? : Value → Option (List (String × List String))
  | .table entries => some entries
  | _ => none

end Value

def assigned (base : Settings) (bindings : List (String × Value)) : Settings where
  basePath := ((bindings.lookup "base_path").bind Value.text?).getD base.basePath
  manifestPath := ((bindings.lookup "manifest_path").bind Value.text?).getD base.manifestPath
  header := ((bindings.lookup "header").bind Value.text?).getD base.header
  namespaces := ((bindings.lookup "namespaces").bind Value.texts?).getD base.namespaces
  classpath := ((bindings.lookup "classpath").bind Value.texts?).getD base.classpath
  serializable := ((bindings.lookup "serializable").bind Value.text?).getD base.serializable
  excluded := ((bindings.lookup "excluded").bind Value.texts?).getD base.excluded
  versionField := ((bindings.lookup "version_field").bind Value.text?).getD base.versionField
  platformTypes := (((bindings.lookup "platform_types").bind Value.table?).map ordered).getD base.platformTypes
  leafTypes := ((bindings.lookup "leaf_types").bind Value.texts?).getD base.leafTypes
  quiet := ((bindings.lookup "quiet").bind Value.flag?).getD base.quiet
  summaryFile := ((bindings.lookup "summary_file").bind Value.text?).or base.summaryFile

section Assigning

variable {base later : Settings} {bindings rest : List (String × Value)} {name : String} {value : Value}

theorem name_mem_of_assign (h : base.assign (name, value) = some later) : name ∈ knownNames := by
  unfold assign at h
  split at h
  case h_13 => cases h
  all_goals
    rename_i he
    cases he
    decide

theorem assigned_of_assign (h : base.assign (name, value) = some later) (hnew : rest.lookup name = none) :
    assigned later rest = assigned base ((name, value) :: rest) := by
  unfold assign at h
  split at h
  case h_13 => cases h
  all_goals
    rename_i he
    cases he
    cases h
    simp [assigned, List.lookup_cons, hnew, Value.text?, Value.texts?, Value.flag?, Value.table?]

/-- Bindings of different names that are settings each take effect. -/
theorem assignAll_eq (hn : (bindings.map Prod.fst).Nodup)
    (hfits : ∀ binding ∈ bindings, ∀ base : Settings, (base.assign binding).isSome = true) :
    bindings.foldlM assign base = some (assigned base bindings) := by
  induction bindings generalizing base with
  | nil => rfl
  | cons binding rest ih =>
    rw [List.map_cons, List.nodup_cons] at hn
    have hnew : rest.lookup binding.1 = none := by
      rw [List.lookup_eq_none_iff]
      intro other ho
      rw [bne_iff_ne]
      intro he
      exact hn.1 (he ▸ List.mem_map_of_mem ho)
    obtain ⟨later, hassign⟩ := Option.isSome_iff_exists.1 (hfits binding List.mem_cons_self base)
    rw [List.foldlM_cons, hassign, Option.bind_eq_bind, Option.bind_some,
      ih hn.2 fun other ho => hfits other (List.mem_cons_of_mem binding ho), assigned_of_assign hassign hnew]

theorem mem_names_of_assignAll (h : bindings.foldlM assign base = some later) :
    ∀ binding ∈ bindings, binding.1 ∈ knownNames := by
  induction bindings generalizing base with
  | nil => exact nofun
  | cons binding rest ih =>
    rw [List.foldlM_cons] at h
    obtain ⟨middle, hassign, hrest⟩ := Option.bind_eq_some_iff.1 h
    exact List.forall_mem_cons.2 ⟨name_mem_of_assign hassign, ih hrest⟩

end Assigning

namespace Assignment

variable {given : Assignment} {bindings : List (String × Value)} {binding : String × Value} {home : Option String}

theorem nodup_rows (given : Assignment) : (given.rows.map Prod.fst).Nodup := by
  change knownNames.Nodup
  decide

theorem mem_lines_iff {name : String} {value : Value} :
    (name, value) ∈ given.lines ↔ (name, some value) ∈ given.rows := by
  unfold lines
  rw [List.mem_filterMap]
  constructor
  · rintro ⟨⟨other, held⟩, hm, he⟩
    obtain ⟨found, hf, he⟩ := Option.map_eq_some_iff.1 he
    cases he
    cases hf
    exact hm
  · exact fun hm => ⟨_, hm, rfl⟩

theorem nodup_lines (given : Assignment) : (given.lines.map Prod.fst).Nodup := by
  have hsub : (given.lines.map Prod.fst).Sublist (given.rows.map Prod.fst) := by
    unfold lines
    induction given.rows with
    | nil => exact .slnil
    | cons row rows ih =>
      obtain ⟨name, value⟩ := row
      cases value with
      | none => exact ih.cons name
      | some value => exact ih.cons_cons name
  exact given.nodup_rows.sublist hsub

theorem lookup_eq (hperm : bindings.Perm given.lines) (name : String) :
    bindings.lookup name = (given.rows.lookup name).join := by
  have hn : (bindings.map Prod.fst).Nodup := (hperm.map Prod.fst).nodup_iff.2 given.nodup_lines
  ext value
  rw [lookup_eq_some_iff_mem hn, hperm.mem_iff, mem_lines_iff, Option.join_eq_some_iff,
    lookup_eq_some_iff_mem given.nodup_rows]

theorem assigned_eq (hperm : bindings.Perm given.lines) :
    assigned (defaults home) bindings = given.settings home := by
  have htext (value : Option String) : (value.map Value.text).bind Value.text? = value := by cases value <;> rfl
  have htexts (values : Option (List String)) : (values.map Value.texts).bind Value.texts? = values := by
    cases values <;> rfl
  have hflag (value : Option Bool) : (value.map Value.flag).bind Value.flag? = value := by cases value <;> rfl
  have htable (table : Option TypeTable) :
      (table.map fun table => Value.table table.entries).bind Value.table? = table.map TypeTable.entries := by
    cases table <;> rfl
  unfold assigned settings
  simp only [lookup_eq hperm, rows, List.lookup_cons, String.reduceBEq, Option.join_some, htext, htexts, hflag, htable,
    Option.map_map]
  rfl

theorem forall_of_map {α : Type} {given : Option α} {make : α → Value} {holds : Value → Prop}
    (h : ∀ held, holds (make held)) : ∀ value, given.map make = some value → holds value := by
  intro value hv
  obtain ⟨held, _, rfl⟩ := Option.map_eq_some_iff.1 hv
  exact h held

theorem fits_of_mem_rows (given : Assignment) : ∀ row ∈ given.rows, ∀ value, row.2 = some value →
    value.isSound = true ∧ ∀ base : Settings, (base.assign (row.1, value)).isSome = true := by
  simp only [rows, List.forall_mem_cons]
  -- only in the table of platform types names could clash
  refine ⟨?_, ?_, ?_, ?_, ?_, ?_, ?_, ?_,
    forall_of_map fun table => ⟨decide_eq_true table.distinct, fun _ => rfl⟩, ?_, ?_, ?_, nofun⟩
  all_goals exact forall_of_map fun _ => ⟨rfl, fun _ => rfl⟩

theorem fits_of_mem (h : binding ∈ given.lines) :
    binding.2.isSound = true ∧ ∀ base : Settings, (base.assign binding).isSome = true :=
  given.fits_of_mem_rows _ (mem_lines_iff.1 h) _ rfl

/-- A document that lists given values, or some of them, names nothing twice. -/
theorem sound_of_subperm {listing : Listing} (h : listing.bindings.Subperm given.lines) : listing.Sound := by
  refine ⟨?_, fun binding hb => (fits_of_mem (h.subset hb)).1⟩
  obtain ⟨sorted, hperm, hsub⟩ := h
  exact (hperm.map Prod.fst).nodup_iff.1 (given.nodup_lines.sublist (hsub.map Prod.fst))

theorem ofDocument?_eq {listing : Listing} {document : String} (hperm : listing.bindings.Perm given.lines)
    (laid : Token.Laid [] listing.tokens document.toList) :
    ofDocument? home document = some (given.settings home) := by
  have hsound := sound_of_subperm hperm.subperm
  rw [ofDocument?, hsound.ofDocument? laid, Option.bind_eq_bind, Option.bind_some,
    assignAll_eq hsound.distinct fun binding hb => (fits_of_mem (hperm.subset hb)).2, assigned_eq hperm]

/-- Behind given values, or some of them, a name that is no setting spoils all. -/
theorem ofDocument?_eq_none {before : Listing} {name : String} {tokens : List Token} {after : List Char}
    {document : String} (hbefore : before.bindings.Subperm given.lines) (hname : name ∉ knownNames)
    (mentions : before.Mentions name tokens) (laid : Token.Laid after (before.tokens ++ tokens) document.toList) :
    ofDocument? home document = none := by
  cases h : ofDocument? home document with
  | none => rfl
  | some settings =>
    obtain ⟨bindings, hbindings, hassign⟩ := Option.bind_eq_some_iff.1 h
    obtain ⟨binding, hm, rfl⟩ := List.mem_map.1 (mentions.bound (sound_of_subperm hbefore) laid hbindings)
    exact absurd (mem_names_of_assignAll hassign binding hm) hname

theorem name_mem_of_mem (h : binding ∈ given.lines) : binding.1 ∈ knownNames :=
  List.mem_map_of_mem (f := Prod.fst) (mem_lines_iff.1 h)

/-- A document that lists given values can be written, whatever is to follow it. -/
theorem laid_writtenAll {listing : Listing} (h : listing.bindings.Subperm given.lines) (after : List Char) :
    Token.Laid after listing.tokens (Token.writtenAll listing.tokens ++ after) := by
  have hnames : ∀ name ∈ knownNames, name.toList ≠ [] ∧ name.toList.all Token.isWordCharacter = true := by decide
  refine Token.laid_writtenAll (listing.writable_tokens fun line hl => ?_) after
  exact hnames line.1 (name_mem_of_mem (h.subset (List.mem_append_left _ hl)))

end Assignment

section Tables

variable {entry : String × List String} {table : List (String × List String)}

theorem pairwise_insertEntry (h : table.Pairwise fun first second => first.1 < second.1)
    (hnew : entry.1 ∉ table.map Prod.fst) :
    (insertEntry entry table).Pairwise fun first second => first.1 < second.1 := by
  induction table with
  | nil => exact List.pairwise_singleton _ _
  | cons first rest ih =>
    obtain ⟨hfirst, hrest⟩ := List.pairwise_cons.1 h
    rw [List.map_cons, List.mem_cons, not_or] at hnew
    rw [insertEntry]
    split
    next hlt =>
      refine List.pairwise_cons.2 ⟨fun other ho => ?_, h⟩
      rcases List.mem_cons.1 ho with rfl | ho
      · exact hlt
      · exact hlt.trans (hfirst other ho)
    next hlt =>
      refine List.pairwise_cons.2 ⟨fun other ho => ?_, ih hrest hnew.2⟩
      rcases List.mem_cons.1 ((insertEntry_perm entry rest).mem_iff.1 ho) with rfl | ho
      · exact lt_of_le_of_ne (not_lt.1 hlt) (Ne.symm hnew.1)
      · exact hfirst other ho

theorem pairwise_ordered (hn : (table.map Prod.fst).Nodup) :
    (ordered table).Pairwise fun first second => first.1 < second.1 := by
  induction table with
  | nil => exact .nil
  | cons entry rest ih =>
    rw [List.map_cons, List.nodup_cons] at hn
    exact pairwise_insertEntry (ih hn.2) fun hm => hn.1 (((ordered_perm rest).map Prod.fst).mem_iff.1 hm)

end Tables

/-- Settings written down and read again. Whichever settings are given values, a document may list them in any
order, with the table of platform types in a line or, behind all other lines, with a header of its own. There
are such documents, and each of them gives these settings their values and all others their defaults; a table
takes the place of the whole default table. Behind some or all of these lines no name may come up that is no
setting, whatever follows it. -/
theorem ofDocument_of_assignment (given : Assignment) (home : Option String) (path : String) :
    (∀ listing : Listing, listing.bindings.Perm given.lines →
      (∃ document : String, Token.Laid [] listing.tokens document.toList) ∧
      ∀ document : String, Token.Laid [] listing.tokens document.toList →
        ofDocument home path document = .ok (given.settings home)) ∧
    (∀ table ∈ given.platformTypes, (given.settings home).platformTypes.Perm table.entries ∧
      (given.settings home).platformTypes.Pairwise fun first second => first.1 < second.1) ∧
    ∀ before : Listing, before.bindings.Subperm given.lines → ∀ name ∉ knownNames, ∀ (tokens : List Token)
      (after : List Char) (document : String), before.Mentions name tokens →
        Token.Laid after (before.tokens ++ tokens) document.toList →
          ofDocument home path document = .error (.malformed path) := by
  refine ⟨fun listing hperm => ⟨?_, fun document laid => ?_⟩, fun table htable => ?_, ?_⟩
  · refine ⟨String.ofList (Token.writtenAll listing.tokens ++ []), ?_⟩
    rw [String.toList_ofList]
    exact Assignment.laid_writtenAll hperm.subperm []
  · rw [ofDocument, Assignment.ofDocument?_eq hperm laid]
  · have hentries : (given.settings home).platformTypes = ordered table.entries := by
      rw [Assignment.settings, Option.mem_def.1 htable]
      rfl
    rw [hentries]
    exact ⟨ordered_perm table.entries, pairwise_ordered table.distinct⟩
  · intro before hbefore name hname tokens after document mentions laid
    rw [ofDocument, Assignment.ofDocument?_eq_none hbefore hname mentions laid]

/-- A header of which some characters have to be escaped, a table that is not in order, and a flag. -/
def oddAssignment : Assignment where
  basePath := none
  manifestPath := none
  header := some "\"\\\n\x00é𝄞"
  namespaces := none
  classpath := none
  serializable := none
  excluded := none
  versionField := none
  platformTypes := some ⟨[("é", ["A", "C"]), ("A", [])], by decide⟩
  leafTypes := none
  quiet := some true
  summaryFile := none

/-- The table may stand in a line or have a header of its own, and what is no setting may have any value. -/
theorem ofDocument_of_oddAssignment :
    let given := { defaults none with
      header := "\"\\\n\x00é𝄞"
      platformTypes := [("A", []), ("é", ["A", "C"])]
      quiet := true }
    ofDocument none "c" ("quiet = true \n platform_types = \x7b \"é\" = [ \"A\" , \"C\" ] , \"A\" = [ ] \x7d " ++
      "\n header = \"\\\"\\\\\\u000a\\u0000é𝄞\" \n ") = .ok given ∧
    ofDocument none "c" ("header = \"\\\"\\\\\\u000a\\u0000é𝄞\" \n quiet = true \n " ++
      "[ platform_types ] \n \"é\" = [ \"A\" , \"C\" ] \n \"A\" = [ ] \n ") = .ok given ∧
    ofDocument none "c" "quiet = true \n colour = 3.5" = .error (.malformed "c") := by
  intro given
  have hgiven : oddAssignment.settings none = given := by decide +kernel
  obtain ⟨hread, _, hspoilt⟩ := ofDocument_of_assignment oddAssignment none "c"
  let quiet : String × Value := ("quiet", .flag true)
  let header : String × Value := ("header", .text "\"\\\n\x00é𝄞")
  let entries := [("é", ["A", "C"]), ("A", [])]
  let inline : Listing := ⟨[quiet, ("platform_types", .table entries), header], none⟩
  let headed : Listing := ⟨[header, quiet], some entries⟩
  have hinline : inline.bindings.Perm oddAssignment.lines := by decide +kernel
  have hheaded : headed.bindings.Perm oddAssignment.lines := by decide +kernel
  have hbefore : (⟨[quiet], none⟩ : Listing).bindings.Subperm oddAssignment.lines := by decide +kernel
  have hcolour : ∀ t ∈ (⟨[quiet], none⟩ : Listing).tokens ++ [.word "colour"], t.Writable := by
    refine List.forall_mem_append.2 ⟨Listing.writable_tokens _ ?_, List.forall_mem_singleton.2 ?_⟩
    · exact List.forall_mem_singleton.2 ⟨by decide, by decide⟩
    · exact ⟨by decide, by decide⟩
  refine ⟨?_, ?_, ?_⟩
  · rw [← hgiven]
    refine (hread inline hinline).2 _ ?_
    convert Assignment.laid_writtenAll hinline.subperm [] using 1
    decide +kernel
  · rw [← hgiven]
    refine (hread headed hheaded).2 _ ?_
    convert Assignment.laid_writtenAll hheaded.subperm [] using 1
    decide +kernel
  · refine hspoilt _ hbefore "colour" (by decide) [.word "colour"] "= 3.5".toList _ (.line rfl rfl) ?_
    convert Token.laid_writtenAll hcolour "= 3.5".toList using 1
    decide +kernel

end SerialManifest.Settings

import SerialManifest.Proofs.ClasspathPrecedence
import SerialManifest.Proofs.SettingsSpelling

namespace SerialManifest.Settings

/-- The tokens of elements with a comma between each two. -/
def Token.separated : List (List Token) → List Token
  | [] => []
  | [element] => element
  | element :: next :: rest => element ++ .comma :: separated (next :: rest)

theorem Token.separated_map_cons_cons {α : Type} (tokens : α → List Token) (first next : α) (rest : List α) :
    separated ((first :: next :: rest).map tokens) =
      tokens first ++ .comma :: separated ((next :: rest).map tokens) :=
  rfl

def Value.textsTokens (values : List String) : List Token :=
  .openBracket :: Token.separated (values.map fun value => [.text value]) ++ [.closeBracket]

def Value.entryTokens (entry : String × List String) : List Token :=
  .text entry.1 :: .equals :: textsTokens entry.2

theorem Value.textsTokens_append (values : List String) (rest : List Token) :
    textsTokens values ++ rest =
      .openBracket :: (Token.separated (values.map fun value => [.text value]) ++ .closeBracket :: rest) := by
  simp [textsTokens]

theorem Value.entryTokens_append (entry : String × List String) (rest : List Token) :
    entryTokens entry ++ rest = .text entry.1 :: .equals :: .openBracket ::
      (Token.separated (entry.2.map fun value => [.text value]) ++ .closeBracket :: rest) := by
  rw [entryTokens, List.cons_append, List.cons_append, textsTokens_append]

theorem Value.separated_entryTokens (entry : String × List String) (entries : List (String × List String)) :
    ∃ rest, Token.separated ((entry :: entries).map entryTokens) = .text entry.1 :: rest := by
  cases entries with
  | nil => exact ⟨_, rfl⟩
  | cons next others => exact ⟨_, rfl⟩

/-- The tokens of a value. The names in a table stand between quotes. -/
def Value.tokens : Value → List Token
  | .text value => [.text value]
  | .flag value => [.word (if value then "true" else "false")]
  | .texts values => textsTokens values
  | .table entries => .openBrace :: Token.separated (entries.map entryTokens) ++ [.closeBrace]

def lineTokens (line : String × Value) : List Token :=
  .word line.1 :: .equals :: line.2.tokens ++ [.lineBreak]

theorem lineTokens_append (line : String × Value) (rest : List Token) :
    lineTokens line ++ rest = .word line.1 :: .equals :: (line.2.tokens ++ .lineBreak :: rest) := by
  simp [lineTokens]

def headedTokens (table : String) (entries : List (String × List String)) : List Token :=
  .openBracket :: .word table :: .closeBracket :: .lineBreak ::
    entries.flatMap fun entry => Value.entryTokens entry ++ [.lineBreak]

namespace Statement

variable {rest left : List Token} {name : String} {values : List String}

theorem readTexts_separated (values : List String) (rest : List Token) :
    readTexts false (Token.separated (values.map fun value => [.text value]) ++ .closeBracket :: rest) =
      some (values, rest) := by
  induction values with
  | nil => rfl
  | cons value values ih =>
    cases values with
    | nil => rfl
    | cons next others =>
      rw [Token.separated_map_cons_cons, List.append_assoc, List.singleton_append, List.cons_append, readTexts,
        readTexts, if_pos rfl, ih]
      rfl

theorem readEntries_last (h : readTexts false rest = some (values, .closeBrace :: left)) :
    readEntries (.text name :: .equals :: .openBracket :: rest) = some ([(name, values)], left) := by
  rw [readEntries]
  split
  next hname hread =>
    cases hname
    cases h.symm.trans hread
    rfl
  next hread => cases h.symm.trans hread
  next hnone _ => exact absurd h (hnone _ _ _ rfl)

theorem readEntries_more (h : readTexts false rest = some (values, .comma :: left)) :
    readEntries (.text name :: .equals :: .openBracket :: rest) =
      (readEntries left).map fun (entries, after) => ((name, values) :: entries, after) := by
  rw [readEntries]
  split
  next hread => cases h.symm.trans hread
  next hname hread =>
    cases hname
    cases h.symm.trans hread
    rfl
  next _ hnone => exact absurd h (hnone _ _ _ rfl)

theorem readEntries_separated {entries : List (String × List String)} (hne : entries ≠ []) (rest : List Token) :
    readEntries (Token.separated (entries.map Value.entryTokens) ++ .closeBrace :: rest) = some (entries, rest) := by
  induction entries with
  | nil => exact absurd rfl hne
  | cons entry entries ih =>
    cases entries with
    | nil =>
      rw [List.map_singleton, Token.separated, Value.entryTokens_append,
        readEntries_last (readTexts_separated entry.2 _)]
    | cons next others =>
      rw [Token.separated_map_cons_cons, List.append_assoc, Value.entryTokens_append, List.cons_append,
        readEntries_more (readTexts_separated entry.2 _), ih (List.cons_ne_nil next others)]
      rfl

theorem readValue_openBrace {first : Token} (hfirst : first ≠ .closeBrace) (rest : List Token) :
    readValue (.openBrace :: first :: rest) =
      (readEntries (first :: rest)).map fun (entries, left) => (.table entries, left) := by
  rw [readValue]
  rintro after ⟨⟩
  exact hfirst rfl

theorem readValue_tokens (value : Value) (rest : List Token) :
    readValue (value.tokens ++ rest) = some (value, rest) := by
  cases value with
  | text value => rfl
  | flag value => cases value <;> rfl
  | texts values =>
    rw [Value.tokens, Value.textsTokens_append, readValue, readTexts_separated]
    rfl
  | table entries =>
    rw [Value.tokens, List.cons_append, List.cons_append, List.append_assoc, List.singleton_append]
    cases entries with
    | nil => rfl
    | cons entry entries =>
      have hread := readEntries_separated (List.cons_ne_nil entry entries) rest
      obtain ⟨others, hothers⟩ := Value.separated_entryTokens entry entries
      rw [hothers, List.cons_append] at hread ⊢
      rw [readValue_openBrace (by rintro ⟨⟩), hread]
      rfl

theorem readAll_of_read {first : Token} {tokens : List Token} {statement : Statement} (hfirst : first ≠ .lineBreak)
    (h : read (first :: tokens) = some (statement, .lineBreak :: rest)) :
    readAll (first :: tokens) = (readAll rest).map (statement :: ·) := by
  rw [readAll]
  · split
    next hread => cases h.symm.trans hread
    next hread =>
      cases h.symm.trans hread
      rfl
    next hnone => exact absurd h (hnone _ _)
  · rintro ⟨⟩
  · rintro after ⟨⟩
    exact hfirst rfl

theorem read_binding {key : Token} (hkey : key.name? = some name) (value : Value) (rest : List Token) :
    read (key :: .equals :: (value.tokens ++ rest)) = some (.binding name value, rest) := by
  have hbracket : key ≠ .openBracket := by
    rintro rfl
    cases hkey
  rw [read, hkey, readValue_tokens]
  · rfl
  · rintro after ⟨⟩
    exact absurd rfl hbracket

theorem readAll_binding {key : Token} (hkey : key.name? = some name) (value : Value) (rest : List Token) :
    readAll (key :: .equals :: (value.tokens ++ .lineBreak :: rest)) =
      (readAll rest).map (.binding name value :: ·) :=
  readAll_of_read (by rintro rfl; cases hkey) (read_binding hkey value _)

def ofLine (line : String × Value) : Statement :=
  .binding line.1 line.2

def ofEntry (entry : String × List String) : Statement :=
  .binding entry.1 (.texts entry.2)

theorem readAll_flatMap {α : Type} {tokens : α → List Token} {statement : α → Statement}
    (h : ∀ element rest, readAll (tokens element ++ rest) = (readAll rest).map (statement element :: ·))
    (elements : List α) (rest : List Token) :
    readAll (elements.flatMap tokens ++ rest) = (readAll rest).map (elements.map statement ++ ·) := by
  induction elements with
  | nil => simp
  | cons element elements ih =>
    rw [List.flatMap_cons, List.append_assoc, h, ih, Option.map_map]
    rfl

theorem readAll_line (line : String × Value) (rest : List Token) :
    readAll (lineTokens line ++ rest) = (readAll rest).map (ofLine line :: ·) := by
  rw [lineTokens_append]
  exact readAll_binding rfl line.2 rest

theorem readAll_entry (entry : String × List String) (rest : List Token) :
    readAll (Value.entryTokens entry ++ [.lineBreak] ++ rest) = (readAll rest).map (ofEntry entry :: ·) := by
  rw [List.append_assoc]
  exact readAll_binding rfl (.texts entry.2) rest

theorem readAll_headed (table : String) (entries : List (String × List String)) (rest : List Token) :
    readAll (headedTokens table entries ++ rest) =
      (readAll rest).map (.header table :: entries.map ofEntry ++ ·) := by
  have hheader (rest : List Token) : readAll (.openBracket :: .word table :: .closeBracket :: .lineBreak :: rest) =
      (readAll rest).map (.header table :: ·) := readAll_of_read (by rintro ⟨⟩) rfl
  unfold headedTokens
  rw [List.cons_append, List.cons_append, List.cons_append, List.cons_append, hheader,
    readAll_flatMap readAll_entry, Option.map_map]
  rfl

end Statement

/-- A settings document: lines, and behind them maybe the table of platform types with a header of its own. -/
structure Listing where
  lines : List (String × Value)
  headed : Option (List (String × List String))
deriving DecidableEq, Repr

def platformTypesName : String := "platform_types"

namespace Listing

/-- What a document binds. -/
def bindings (listing : Listing) : List (String × Value) :=
  listing.lines ++ (listing.headed.map fun entries => (platformTypesName, .table entries)).toList

def tokens (listing : Listing) : List Token :=
  listing.lines.flatMap lineTokens ++ listing.headed.elim [] (headedTokens platformTypesName)

def statements (listing : Listing) : List Statement :=
  listing.lines.map Statement.ofLine ++
    listing.headed.elim [] fun entries => .header platformTypesName :: entries.map Statement.ofEntry

theorem readAll_tokens (listing : Listing) (rest : List Token) :
    Statement.readAll (listing.tokens ++ rest) = (Statement.readAll rest).map (listing.statements ++ ·) := by
  unfold tokens statements
  rw [List.append_assoc, Statement.readAll_flatMap Statement.readAll_line]
  cases listing.headed with
  | none => simp
  | some entries =>
    rw [Option.elim_some, Option.elim_some, Statement.readAll_headed, Option.map_map]
    congr 1
    funext others
    exact (List.append_assoc _ _ _).symm

end Listing

namespace Bindings

variable {values lines before : List (String × Value)} {extensible : List String} {table name : String}
variable {entries more : List (String × List String)} {entry : String × List String}

theorem define_eq {bindings : Bindings} {value : Value} (hnew : name ∉ bindings.names)
    (hsound : value.isSound = true) :
    bindings.define name value = some { bindings with values := bindings.values ++ [(name, value)] } := by
  unfold names at hnew
  rw [define, if_neg (by simp [hnew, hsound])]

theorem not_mem_of_nodup {α : Type} {first second : List (String × α)} {pair : String × α}
    (hn : ((first ++ pair :: second).map Prod.fst).Nodup) : pair.1 ∉ first.map Prod.fst := by
  rw [List.map_append, List.map_cons] at hn
  exact fun hm => (List.nodup_append.1 hn).2.2 _ hm _ List.mem_cons_self rfl

theorem addAll_lines (hn : ((values ++ lines).map Prod.fst).Nodup)
    (hsound : ∀ line ∈ lines, line.2.isSound = true) :
    (lines.map Statement.ofLine).foldlM add ⟨values, extensible, none⟩ =
      some ⟨values ++ lines, extensible, none⟩ := by
  induction lines generalizing values with
  | nil =>
    rw [List.append_nil]
    rfl
  | cons line lines ih =>
    have hadd : add ⟨values, extensible, none⟩ (.ofLine line) = some ⟨values ++ [line], extensible, none⟩ :=
      define_eq (not_mem_of_nodup hn) (hsound line List.mem_cons_self)
    rw [List.append_cons] at hn ⊢
    rw [List.map_cons, List.foldlM_cons, hadd, Option.bind_eq_bind, Option.bind_some,
      ih hn fun other ho => hsound other (List.mem_cons_of_mem line ho)]

theorem addEntry_last (hbefore : table ∉ before.map Prod.fst) (hnew : entry.1 ∉ entries.map Prod.fst)
    (current : Option String) :
    addEntry ⟨before ++ [(table, .table entries)], extensible, current⟩ table entry.1 (.texts entry.2) =
      some ⟨before ++ [(table, .table (entries ++ [entry]))], extensible, current⟩ := by
  have hne : ∀ b ∈ before, b.1 ≠ table := by
    rintro b hb rfl
    exact hbefore (List.mem_map_of_mem hb)
  have hnone : before.lookup table = none := by
    rw [List.lookup_eq_none_iff]
    exact fun b hb => bne_iff_ne.2 (hne b hb).symm
  have hlookup : (before ++ [(table, Value.table entries)]).lookup table = some (.table entries) := by
    rw [List.lookup_append, hnone, Option.none_or, List.lookup_cons_self]
  have hkept (extended : Value) : before.map (fun b => if b.1 = table then (table, extended) else b) = before := by
    rw [List.map_congr_left fun b hb => if_neg (hne b hb), List.map_id']
  simp only [addEntry, hlookup]
  rw [if_neg hnew, List.map_append, hkept]
  simp

/-- Behind a header, lines add entries to its table. -/
theorem addAll_entries (hbefore : table ∉ before.map Prod.fst) (hn : ((entries ++ more).map Prod.fst).Nodup) :
    (more.map Statement.ofEntry).foldlM add ⟨before ++ [(table, .table entries)], extensible, some table⟩ =
      some ⟨before ++ [(table, .table (entries ++ more))], extensible, some table⟩ := by
  induction more generalizing entries with
  | nil =>
    rw [List.append_nil]
    rfl
  | cons entry more ih =>
    have hadd : add ⟨before ++ [(table, .table entries)], extensible, some table⟩ (.ofEntry entry) =
        some ⟨before ++ [(table, .table (entries ++ [entry]))], extensible, some table⟩ :=
      addEntry_last hbefore (not_mem_of_nodup hn) (some table)
    rw [List.append_cons] at hn
    rw [List.map_cons, List.foldlM_cons, hadd, Option.bind_eq_bind, Option.bind_some, ih hn, ← List.append_cons]

end Bindings

namespace Listing

variable {listing : Listing}

/-- Names are bound once, in the document and in each table. -/
structure Sound (listing : Listing) : Prop where
  distinct : (listing.bindings.map Prod.fst).Nodup
  sound : ∀ binding ∈ listing.bindings, binding.2.isSound = true

/-- A document binds what it lists. -/
theorem Sound.addAll (sound : listing.Sound) : listing.statements.foldlM Bindings.add .empty =
    some ⟨listing.bindings, [], listing.headed.map fun _ => platformTypesName⟩ := by
  obtain ⟨lines, headed⟩ := listing
  obtain ⟨distinct, hsound⟩ := sound
  have hlines : (lines.map Statement.ofLine).foldlM Bindings.add .empty = some ⟨lines, [], none⟩ := by
    refine Bindings.addAll_lines ?_ fun line hl => hsound line (List.mem_append_left _ hl)
    rw [bindings, List.map_append] at distinct
    exact (List.nodup_append.1 distinct).1
  rw [statements, List.foldlM_append, hlines]
  cases headed with
  | none =>
    rw [bindings, Option.map_none, Option.toList_none, List.append_nil]
    rfl
  | some entries =>
    have hnew : platformTypesName ∉ lines.map Prod.fst := Bindings.not_mem_of_nodup distinct
    have hadd : Bindings.add ⟨lines, [], none⟩ (.header platformTypesName) =
        some ⟨lines ++ [(platformTypesName, .table [])], [], some platformTypesName⟩ := by
      rw [Bindings.add, Bindings.define_eq hnew rfl]
      rfl
    have hentries : (entries.map Prod.fst).Nodup :=
      of_decide_eq_true (hsound (platformTypesName, .table entries) (List.mem_append_right _ List.mem_cons_self))
    have hall : (entries.map Statement.ofEntry).foldlM Bindings.add
        ⟨lines ++ [(platformTypesName, .table [])], [], some platformTypesName⟩ =
          some ⟨lines ++ [(platformTypesName, .table entries)], [], some platformTypesName⟩ :=
      Bindings.addAll_entries hnew hentries
    rw [Option.bind_eq_bind, Option.bind_some, Option.elim_some, List.foldlM_cons, hadd, Option.bind_eq_bind,
      Option.bind_some, hall]
    rfl

/-- However a document is laid out, it binds what it lists. -/
theorem Sound.ofDocument? (sound : listing.Sound) {document : String}
    (laid : Token.Laid [] listing.tokens document.toList) :
    Bindings.ofDocument? document = some listing.bindings := by
  have htokens : Token.ofDocument document = some listing.tokens := by
    rw [Token.ofDocument_of_laid laid (by rintro _ ⟨⟩), Token.unifyLineBreaks, Token.readAll, Option.map_some,
      List.append_nil]
  have hstatements := listing.readAll_tokens []
  rw [List.append_nil, Statement.readAll, Option.map_some, List.append_nil] at hstatements
  rw [Bindings.ofDocument?, htokens, Option.bind_eq_bind, Option.bind_some, hstatements, Option.bind_eq_bind,
    Option.bind_some, sound.addAll]
  rfl

/-- The tokens with which a name comes up behind a document: its own header, or the name itself, unless there the
lines are those of a table. -/
inductive Mentions (listing : Listing) (name : String) : List Token → Prop where
  | line {key : Token} (hkey : key.name? = some name) (hfree : listing.headed = none) :
    Mentions listing name [key]
  | header {key : Token} (hkey : key.name? = some name) : Mentions listing name [.openBracket, key]

end Listing

/-- The name outside of tables that a statement is about. -/
def Statement.subject : Statement → String
  | .header table => table
  | .binding name _ => name
  | .entry table _ _ => table

namespace Bindings

variable {bindings later : Bindings} {statement : Statement} {statements : List Statement} {name : String}

theorem subject_mem_of_add (hfree : bindings.current = none ∨ ∃ table, statement = .header table)
    (h : bindings.add statement = some later) : statement.subject ∈ later.names := by
  cases statement with
  | header table =>
    obtain ⟨extended, hd, he⟩ := Option.bind_eq_some_iff.1 h
    cases he
    have hnames := (names_of_define hd).2
    change table ∈ extended.names
    simp [hnames]
  | binding name value =>
    have hcurrent : bindings.current = none := hfree.resolve_right (by rintro ⟨table, ⟨⟩⟩)
    simp only [add, hcurrent] at h
    simp [(names_of_define h).2, Statement.subject]
  | entry table name value =>
    have hcurrent : bindings.current = none := hfree.resolve_right (by rintro ⟨table, ⟨⟩⟩)
    simp only [add, hcurrent, Option.isSome_none, Bool.false_eq_true, ↓reduceIte] at h
    split at h
    next =>
      obtain ⟨hm, hnames⟩ := names_of_addEntry h
      exact hnames ▸ hm
    next =>
      obtain ⟨extended, _, he⟩ := Option.bind_eq_some_iff.1 h
      obtain ⟨hm, hnames⟩ := names_of_addEntry he
      exact hnames ▸ hm

theorem mem_names_of_addAll (hm : name ∈ bindings.names) (h : statements.foldlM add bindings = some later) :
    name ∈ later.names := by
  induction statements generalizing bindings with
  | nil =>
    cases h
    exact hm
  | cons statement rest ih =>
    rw [List.foldlM_cons] at h
    obtain ⟨middle, ha, hr⟩ := Option.bind_eq_some_iff.1 h
    refine ih ?_ hr
    rcases names_of_add ha with hnames | ⟨_, _, hnames⟩
    · exact hnames ▸ hm
    · exact hnames ▸ List.mem_append_left _ hm

end Bindings

namespace Statement

variable {first key : Token} {tokens rest left : List Token} {name : String} {statement : Statement}

theorem read_of_readAll {statements : List Statement} (hfirst : first ≠ .lineBreak)
    (h : readAll (first :: tokens) = some statements) : ∃ statement left others,
      read (first :: tokens) = some (statement, left) ∧ statements = statement :: others := by
  rw [readAll] at h
  · split at h
    next hread =>
      cases h
      exact ⟨_, _, _, hread, rfl⟩
    next hread =>
      obtain ⟨others, _, rfl⟩ := Option.map_eq_some_iff.1 h
      exact ⟨_, _, others, hread, rfl⟩
    next => cases h
  · rintro ⟨⟩
  · rintro after ⟨⟩
    exact hfirst rfl

theorem subject_of_read_key (hkey : key.name? = some name) (h : read (key :: rest) = some (statement, left)) :
    statement.subject = name := by
  unfold read at h
  split at h
  next he =>
    cases he
    cases hkey
  next he =>
    cases he
    obtain ⟨name', hname, h⟩ := Option.bind_eq_some_iff.1 h
    obtain ⟨⟨value, after⟩, _, h⟩ := Option.bind_eq_some_iff.1 h
    cases h
    exact Option.some.inj (hname.symm.trans hkey)
  next he =>
    cases he
    obtain ⟨table, htable, h⟩ := Option.bind_eq_some_iff.1 h
    obtain ⟨name', _, h⟩ := Option.bind_eq_some_iff.1 h
    obtain ⟨⟨value, after⟩, _, h⟩ := Option.bind_eq_some_iff.1 h
    cases h
    exact Option.some.inj (htable.symm.trans hkey)
  next => cases h

theorem read_openBracket (hkey : key.name? = some name)
    (h : read (.openBracket :: key :: rest) = some (statement, left)) : statement = .header name := by
  unfold read at h
  split at h
  next he =>
    cases he
    rw [hkey] at h
    cases h
    rfl
  next he =>
    cases he
    cases hkey
  next he =>
    cases he
    cases hkey
  next => cases h

end Statement

namespace Listing

variable {listing : Listing} {name : String} {tokens rest : List Token} {statements : List Statement}

/-- Where a name comes up, there is a statement about it if anything is read there at all. -/
theorem Mentions.statement (mentions : listing.Mentions name tokens)
    (h : Statement.readAll (tokens ++ rest) = some statements) : ∃ statement others,
      statements = statement :: others ∧ statement.subject = name ∧
        (listing.headed = none ∨ ∃ table, statement = .header table) := by
  cases mentions with
  | line hkey hfree =>
    obtain ⟨statement, _, others, hread, rfl⟩ := Statement.read_of_readAll (by rintro rfl; cases hkey) h
    exact ⟨statement, others, rfl, Statement.subject_of_read_key hkey hread, .inl hfree⟩
  | header hkey =>
    obtain ⟨statement, _, others, hread, rfl⟩ := Statement.read_of_readAll (by rintro ⟨⟩) h
    have hheader := Statement.read_openBracket hkey hread
    exact ⟨statement, others, rfl, by rw [hheader]; rfl, .inr ⟨name, hheader⟩⟩

/-- A name that comes up behind a document is bound, whatever follows it, if all that can be read. -/
theorem Mentions.bound {document : String} {after : List Char} {bindings : List (String × Value)}
    (mentions : listing.Mentions name tokens) (sound : listing.Sound)
    (laid : Token.Laid after (listing.tokens ++ tokens) document.toList)
    (h : Bindings.ofDocument? document = some bindings) : name ∈ bindings.map Prod.fst := by
  have hne : listing.tokens ++ tokens ≠ [] := by cases mentions <;> simp
  obtain ⟨all, hall, h⟩ := Option.bind_eq_some_iff.1 h
  obtain ⟨statements, hstatements, h⟩ := Option.bind_eq_some_iff.1 h
  obtain ⟨final, hfinal, h⟩ := Option.bind_eq_some_iff.1 h
  cases h
  rw [Token.ofDocument_of_laid laid fun he => absurd he hne] at hall
  obtain ⟨rest, _, rfl⟩ := Option.map_eq_some_iff.1 hall
  rw [List.append_assoc, readAll_tokens] at hstatements
  obtain ⟨behind, hbehind, rfl⟩ := Option.map_eq_some_iff.1 hstatements
  obtain ⟨statement, others, rfl, rfl, hfree⟩ := mentions.statement hbehind
  rw [List.foldlM_append, sound.addAll, Option.bind_eq_bind, Option.bind_some, List.foldlM_cons] at hfinal
  obtain ⟨later, hadd, hlater⟩ := Option.bind_eq_some_iff.1 hfinal
  refine Bindings.mem_names_of_addAll (Bindings.subject_mem_of_add ?_ hadd) hlater
  exact hfree.imp_left fun hnone => by rw [hnone]; rfl

end Listing

section Writing

variable {elements : List (List Token)}

theorem Token.writable_separated (h : ∀ element ∈ elements, ∀ t ∈ element, t.Writable) :
    ∀ t ∈ separated elements, t.Writable := by
  fun_induction separated elements with
  | case1 => exact nofun
  | case2 element => exact h element List.mem_cons_self
  | case3 element next rest ih =>
    obtain ⟨helement, hrest⟩ := List.forall_mem_cons.1 h
    exact List.forall_mem_append.2 ⟨helement, List.forall_mem_cons.2 ⟨trivial, ih hrest⟩⟩

theorem Value.writable_textsTokens (values : List String) : ∀ t ∈ textsTokens values, t.Writable := by
  refine List.forall_mem_append.2 ⟨List.forall_mem_cons.2 ⟨trivial, ?_⟩, List.forall_mem_singleton.2 trivial⟩
  refine Token.writable_separated (List.forall_mem_map.2 fun value _ => ?_)
  exact List.forall_mem_singleton.2 trivial

theorem Value.writable_entryTokens (entry : String × List String) : ∀ t ∈ entryTokens entry, t.Writable :=
  List.forall_mem_cons.2 ⟨trivial, List.forall_mem_cons.2 ⟨trivial, writable_textsTokens entry.2⟩⟩

theorem Value.writable_tokens (value : Value) : ∀ t ∈ value.tokens, t.Writable := by
  cases value with
  | text value => exact List.forall_mem_singleton.2 trivial
  | flag value =>
    refine List.forall_mem_singleton.2 ?_
    cases value
    · exact ⟨by decide, by decide⟩
    · exact ⟨by decide, by decide⟩
  | texts values => exact writable_textsTokens values
  | table entries =>
    refine List.forall_mem_append.2 ⟨List.forall_mem_cons.2 ⟨trivial, ?_⟩, List.forall_mem_singleton.2 trivial⟩
    exact Token.writable_separated (List.forall_mem_map.2 fun entry _ => writable_entryTokens entry)

theorem writable_lineTokens {line : String × Value} (h : (Token.word line.1).Writable) :
    ∀ t ∈ lineTokens line, t.Writable := by
  refine List.forall_mem_append.2 ⟨?_, List.forall_mem_singleton.2 trivial⟩
  exact List.forall_mem_cons.2 ⟨h, List.forall_mem_cons.2 ⟨trivial, line.2.writable_tokens⟩⟩

theorem writable_headedTokens {table : String} (h : (Token.word table).Writable)
    (entries : List (String × List String)) : ∀ t ∈ headedTokens table entries, t.Writable := by
  refine List.forall_mem_cons.2 ⟨trivial, List.forall_mem_cons.2 ⟨h, List.forall_mem_cons.2 ⟨trivial,
    List.forall_mem_cons.2 ⟨trivial, List.forall_mem_flatMap.2 fun entry _ => ?_⟩⟩⟩⟩
  exact List.forall_mem_append.2 ⟨Value.writable_entryTokens entry, List.forall_mem_singleton.2 trivial⟩

/-- A document can be written if the names in its lines need no quotes. -/
theorem Listing.writable_tokens (listing : Listing) (h : ∀ line ∈ listing.lines, (Token.word line.1).Writable) :
    ∀ t ∈ listing.tokens, t.Writable := by
  refine List.forall_mem_append.2
    ⟨List.forall_mem_flatMap.2 fun line hl => writable_lineTokens (h line hl), ?_⟩
  cases listing.headed with
  | none => exact nofun
  | some entries => exact writable_headedTokens ⟨by decide, by decide⟩ entries

end Writing

end SerialManifest.Settings

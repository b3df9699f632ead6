import SerialManifest.Proofs.TextCodecs

namespace SerialManifest.Settings.Token

open Text (Ends numberOfHex?)

def letters : List (Char × Char) :=
  [('b', '\x08'), ('t', '\t'), ('n', '\n'), ('f', '\x0c'), ('r', '\r'), ('"', '"'), ('\\', '\\')]

/-- The ways to write a character between quotes. -/
inductive Spells : Char → List Char → Prop where
  | plain {c : Char} (hplain : isPlain c = true) (hquote : c ≠ '"') (hslash : c ≠ '\\') : Spells c [c]
  | letter {c letter : Char} (h : (letter, c) ∈ letters) : Spells c ['\\', letter]
  | short {c : Char} {digits : List Char} (hlength : digits.length = 4)
    (h : numberOfHex? digits = some c.toNat) : Spells c ('\\' :: 'u' :: digits)
  | long {c : Char} {digits : List Char} (hlength : digits.length = 8)
    (h : numberOfHex? digits = some c.toNat) : Spells c ('\\' :: 'U' :: digits)

inductive SpellsAll : List Char → List Char → Prop where
  | nil : SpellsAll [] []
  | cons {c : Char} {chars text body : List Char} (h : Spells c chars) (more : SpellsAll text body) :
    SpellsAll (c :: text) (chars ++ body)

/-- Tokens laid out before the characters `after`. -/
inductive Laid (after : List Char) : List Token → List Char → Prop where
  | done : Laid after [] after
  | blank {c : Char} {tokens : List Token} {chars : List Char} (hc : isBlank c = true)
    (more : Laid after tokens chars) : Laid after tokens (c :: chars)
  | sign {c : Char} {token : Token} {tokens : List Token} {chars : List Char} (hc : ofSign? c = some token)
    (more : Laid after tokens chars) : Laid after (token :: tokens) (c :: chars)
  | word {name chars : List Char} {tokens : List Token} (hne : name ≠ [])
    (hname : ∀ c ∈ name, isWordCharacter c = true) (ends : Ends isWordCharacter chars)
    (more : Laid after tokens chars) : Laid after (.word (String.ofList name) :: tokens) (name ++ chars)
  | text {text body chars : List Char} {tokens : List Token} (spells : SpellsAll text body)
    (hquote : chars.head? ≠ some '"') (more : Laid after tokens chars) :
    Laid after (.text (String.ofList text) :: tokens) ('"' :: body ++ '"' :: chars)

section Reading

variable {c : Char} {chars rest text body after : List Char} {tokens : List Token}

theorem characterOfHex?_eq_some (h : numberOfHex? chars = some c.toNat) : characterOfHex? chars = some c := by
  have hvalid : c.toNat.isValidChar := c.valid
  rw [Text.characterOfHex?_eq, h, Option.bind_some, if_pos hvalid, Char.ofNat_toNat]

theorem readNumbered_append {width : Nat} (hlength : chars.length = width) (h : numberOfHex? chars = some c.toNat)
    (rest : List Char) : readNumbered width (chars ++ rest) = some (c, rest) := by
  rw [readNumbered, if_neg (by simp [hlength]), List.take_left' hlength, List.drop_left' hlength,
    characterOfHex?_eq_some h, Option.map_some]

theorem readText_escaped (h : unescape chars = some (c, rest)) :
    readText ('\\' :: chars) = (readText rest).map fun (value, left) => (c :: value, left) := by
  rw [readText, if_neg (by decide), if_pos rfl]
  split
  next hnone => rw [h] at hnone; cases hnone
  next hsome => rw [h] at hsome; cases hsome; rfl

theorem readText_of_spells (spells : Spells c chars) (rest : List Char) :
    readText (chars ++ rest) = (readText rest).map fun (value, left) => (c :: value, left) := by
  cases spells with
  | plain hplain hquote hslash =>
    rw [List.singleton_append, readText, if_neg hquote, if_neg hslash, if_pos hplain]
  | letter h =>
    refine readText_escaped ?_
    simp only [letters, List.mem_cons, Prod.mk.injEq, List.not_mem_nil, or_false] at h
    rcases h with ⟨rfl, rfl⟩ | ⟨rfl, rfl⟩ | ⟨rfl, rfl⟩ | ⟨rfl, rfl⟩ | ⟨rfl, rfl⟩ | ⟨rfl, rfl⟩ | ⟨rfl, rfl⟩ <;> rfl
  | short hlength h =>
    refine readText_escaped ?_
    rw [List.append_eq, List.cons_append, unescape, if_pos rfl, readNumbered_append hlength h]
  | long hlength h =>
    refine readText_escaped ?_
    rw [List.append_eq, List.cons_append, unescape, if_neg (by decide), if_pos rfl, readNumbered_append hlength h]

theorem readText_of_spellsAll (spells : SpellsAll text body) (rest : List Char) :
    readText (body ++ '"' :: rest) = some (text, rest) := by
  induction spells with
  | nil => simp [readText]
  | cons h _ ih => rw [List.append_assoc, readText_of_spells h, ih, Option.map_some]

theorem readAll_cons {token : Option Token} (h : read c chars = some (token, rest)) :
    readAll (c :: chars) = (readAll rest).map (token.toList ++ ·) := by
  rw [readAll]
  split
  next hnone => rw [h] at hnone; cases hnone
  next hsome => rw [h] at hsome; cases hsome; rfl

theorem readAll_of_blank (hc : isBlank c = true) (rest : List Char) : readAll (c :: rest) = readAll rest := by
  rw [readAll_cons (by rw [read, if_pos hc])]
  simp

theorem read_of_sign {token : Token} (hc : ofSign? c = some token) (rest : List Char) :
    read c rest = some (some token, rest) := by
  unfold ofSign? at hc
  split at hc <;> cases hc <;> rfl

theorem read_of_word (hc : isWordCharacter c = true) (rest : List Char) :
    read c rest = some (some (.word (String.ofList (c :: rest.takeWhile isWordCharacter))),
      rest.dropWhile isWordCharacter) := by
  have hblank : isBlank c = false := by
    rw [Bool.eq_false_iff]
    intro hb
    simp only [isBlank, Bool.or_eq_true, beq_iff_eq] at hb
    rcases hb with rfl | rfl <;> cases hc
  have hcomment : c ≠ '#' := by
    rintro rfl
    cases hc
  rw [read, if_neg (by simp [hblank]), if_neg hcomment, if_pos hc]

theorem SpellsAll.not_block (spells : SpellsAll text body) (hquote : rest.head? ≠ some '"') :
    ¬ ['"', '"'].isPrefixOf (body ++ '"' :: rest) = true := by
  rw [List.isPrefixOf_iff_prefix]
  rintro ⟨others, hothers⟩
  cases spells with
  | nil =>
    cases hothers
    exact hquote rfl
  | cons h _ =>
    cases h with
    | plain _ hne _ => exact hne (List.cons.inj hothers).1.symm
    | letter | short | long => cases hothers

theorem read_of_spellsAll (spells : SpellsAll text body) (hquote : rest.head? ≠ some '"') :
    read '"' (body ++ '"' :: rest) = some (some (.text (String.ofList text)), rest) := by
  rw [read, if_neg (by decide), if_neg (by decide), if_neg (by decide), if_pos rfl, readQuoted,
    if_neg (spells.not_block hquote), readText_of_spellsAll spells]
  rfl

/-- However tokens are laid out, those tokens are read. -/
theorem readAll_of_laid (laid : Laid after tokens chars) :
    readAll chars = (readAll after).map (tokens ++ ·) := by
  induction laid with
  | done => simp
  | blank hc _ ih =>
    rw [readAll_of_blank hc, ih]
  | sign hc _ ih =>
    rw [readAll_cons (read_of_sign hc _), ih, Option.map_map]
    rfl
  | @word name chars tokens hne hname ends _ ih =>
    obtain ⟨c, others, rfl⟩ := List.exists_cons_of_ne_nil hne
    have hothers : ∀ d ∈ others, isWordCharacter d = true := fun d hd => hname d (List.mem_cons_of_mem c hd)
    rw [List.cons_append, readAll_cons (read_of_word (hname c List.mem_cons_self) _),
      ends.takeWhile_append hothers, ends.dropWhile_append hothers, ih, Option.map_map]
    rfl
  | text spells hquote _ ih =>
    rw [List.cons_append, readAll_cons (read_of_spellsAll spells hquote), ih, Option.map_map]
    rfl

end Reading

section Documents

variable {c : Char} {chars text body after : List Char} {tokens : List Token}

theorem unifyLineBreaks_cons (hc : c ≠ '\r') (rest : List Char) :
    unifyLineBreaks (c :: rest) = c :: unifyLineBreaks rest := by
  rw [unifyLineBreaks]
  simp [hc]

theorem unifyLineBreaks_append (h : '\r' ∉ chars) (rest : List Char) :
    unifyLineBreaks (chars ++ rest) = chars ++ unifyLineBreaks rest := by
  induction chars with
  | nil => rfl
  | cons c chars ih =>
    rw [List.mem_cons, not_or] at h
    rw [List.cons_append, unifyLineBreaks_cons (Ne.symm h.1), ih h.2, List.cons_append]

theorem head?_unifyLineBreaks (chars : List Char) :
    (unifyLineBreaks chars).head? = chars.head? ∨ (unifyLineBreaks chars).head? = some '\n' := by
  fun_cases unifyLineBreaks chars with
  | case1 rest => exact .inr rfl
  | case2 c rest => exact .inl rfl
  | case3 => exact .inl rfl

theorem mapM_hexDigit?_of_mem (hc : hexDigit? c = none) (h : c ∈ chars) : chars.mapM hexDigit? = none := by
  induction chars with
  | nil => cases h
  | cons d chars ih =>
    rw [List.mapM_cons]
    rcases List.mem_cons.1 h with rfl | h
    · rw [hc]
      rfl
    · rw [ih h]
      cases hexDigit? d <;> rfl

theorem not_mem_of_numberOfHex? {n : Nat} (h : numberOfHex? chars = some n) : '\r' ∉ chars := by
  intro hm
  rw [numberOfHex?, mapM_hexDigit?_of_mem (by decide) hm] at h
  cases h

theorem Spells.not_mem (spells : Spells c chars) : '\r' ∉ chars := by
  cases spells with
  | plain hplain _ _ =>
    rw [List.mem_singleton]
    rintro rfl
    cases hplain
  | letter h =>
    have hletters : ∀ pair ∈ letters, '\r' ∉ ['\\', pair.1] := by decide
    exact hletters _ h
  | short hlength h => simp [not_mem_of_numberOfHex? h]
  | long hlength h => simp [not_mem_of_numberOfHex? h]

theorem SpellsAll.not_mem (spells : SpellsAll text body) : '\r' ∉ body := by
  induction spells with
  | nil => exact List.not_mem_nil
  | cons h _ ih => exact List.mem_append.not.2 (not_or.2 ⟨h.not_mem, ih⟩)

/-- Unifying line breaks changes nothing of what is laid out, since none is written with two characters. -/
theorem laid_unifyLineBreaks (laid : Laid after tokens chars) :
    Laid (unifyLineBreaks after) tokens (unifyLineBreaks chars) := by
  induction laid with
  | done => exact .done
  | @blank c tokens chars hc _ ih =>
    have hne : c ≠ '\r' := by rintro rfl; cases hc
    rw [unifyLineBreaks_cons hne]
    exact .blank hc ih
  | @sign c token tokens chars hc _ ih =>
    have hne : c ≠ '\r' := by rintro rfl; cases hc
    rw [unifyLineBreaks_cons hne]
    exact .sign hc ih
  | @word name chars tokens hne hname ends _ ih =>
    have hr : '\r' ∉ name := fun hm => absurd (hname _ hm) (by decide)
    rw [unifyLineBreaks_append hr]
    refine .word hne hname (fun c hc => ?_) ih
    rcases head?_unifyLineBreaks chars with hhead | hhead
    · exact ends c (hhead ▸ hc)
    · rw [hhead] at hc
      cases hc
      rfl
  | @text text body chars tokens spells hquote _ ih =>
    rw [List.cons_append, unifyLineBreaks_cons (by decide), unifyLineBreaks_append spells.not_mem,
      unifyLineBreaks_cons (by decide)]
    refine .text spells ?_ ih
    rcases head?_unifyLineBreaks chars with hhead | hhead
    · rwa [hhead]
    · rw [hhead]
      decide

theorem Laid.head?_ne (laid : Laid after tokens chars) (hafter : tokens = [] → after.head? ≠ some byteOrderMark) :
    chars.head? ≠ some byteOrderMark := by
  cases laid with
  | done => exact hafter rfl
  | blank hc _ =>
    rintro ⟨⟩
    cases hc
  | sign hc _ =>
    rintro ⟨⟩
    cases hc
  | @word name chars tokens hne hname _ _ =>
    obtain ⟨c, others, rfl⟩ := List.exists_cons_of_ne_nil hne
    have hc := hname c List.mem_cons_self
    rintro ⟨⟩
    cases hc
  | text =>
    rintro ⟨⟩

theorem ofDocument_of_laid {document : String} (laid : Laid after tokens document.toList)
    (hafter : tokens = [] → after.head? ≠ some byteOrderMark) :
    ofDocument document = (readAll (unifyLineBreaks after)).map (tokens ++ ·) := by
  unfold ofDocument
  dsimp only
  rw [if_neg (laid.head?_ne hafter), readAll_of_laid (laid_unifyLineBreaks laid)]

end Documents

section Writing

variable {tokens : List Token}

/-- A way to write a character between quotes: only what has to be is written with a backslash. -/
def escape (c : Char) : List Char :=
  if c = '"' ∨ c = '\\' then ['\\', c]
  else if isPlain c then [c]
  else '\\' :: 'u' :: Text.hex 4 c.toNat

/-- A way to write a token, unless it is a block. -/
def written : Token → List Char
  | .word name => name.toList
  | .text value => '"' :: value.toList.flatMap escape ++ ['"']
  | .block _ => []
  | .lineBreak => ['\n']
  | .equals => ['=']
  | .dot => ['.']
  | .comma => [',']
  | .openBracket => ['[']
  | .closeBracket => [']']
  | .openBrace => ['\x7b']
  | .closeBrace => ['\x7d']

def Writable : Token → Prop
  | .word name => name.toList ≠ [] ∧ name.toList.all isWordCharacter = true
  | .block _ => False
  | _ => True

theorem spells_escape (c : Char) : Spells c (escape c) := by
  unfold escape
  split_ifs with hescaped hplain
  · refine .letter ?_
    rcases hescaped with rfl | rfl <;> decide
  · rw [not_or] at hescaped
    exact .plain hplain hescaped.1 hescaped.2
  · refine .short (Text.hex_length 4 _) ?_
    have hcontrol : c.toNat < 16 ^ 4 := by
      simp [isPlain] at hplain
      omega
    rw [Text.numberOfHex?_hex, Nat.mod_eq_of_lt hcontrol]

theorem spellsAll_flatMap (text : List Char) : SpellsAll text (text.flatMap escape) := by
  induction text with
  | nil => exact .nil
  | cons c text ih => exact .cons (spells_escape c) ih

def writtenAll (tokens : List Token) : List Char :=
  tokens.flatMap fun t => t.written ++ [' ']

theorem laid_writtenAll (h : ∀ t ∈ tokens, t.Writable) (after : List Char) :
    Laid after tokens (writtenAll tokens ++ after) := by
  induction tokens with
  | nil => exact .done
  | cons token tokens ih =>
    have hrest : Laid after tokens (' ' :: (writtenAll tokens ++ after)) :=
      .blank rfl (ih fun t ht => h t (List.mem_cons_of_mem token ht))
    have hall : writtenAll (token :: tokens) ++ after = token.written ++ ' ' :: (writtenAll tokens ++ after) := by
      simp [writtenAll]
    rw [hall]
    have htoken := h token List.mem_cons_self
    cases token with
    | word name =>
      have := Laid.word htoken.1 (List.all_eq_true.1 htoken.2) (by rintro c ⟨⟩; rfl) hrest
      rwa [String.ofList_toList] at this
    | text value =>
      have := Laid.text (spellsAll_flatMap value.toList) (by rintro ⟨⟩) hrest
      rw [String.ofList_toList] at this
      simpa [written] using this
    | block => cases htoken
    | lineBreak | equals | dot | comma | openBracket | closeBracket | openBrace | closeBrace =>
      exact .sign rfl hrest

end Writing

end SerialManifest.Settings.Token

import SerialManifest.Proofs.TextCodecs
import SerialManifest.Report.Json

namespace SerialManifest.Json

inductive Token where
  | text (value : String)
  | number (value : Nat)
  | comma
  | colon
  | openBracket
  | closeBracket
  | openBrace
  | closeBrace
deriving DecidableEq, Repr

namespace Token

def isBlank (c : Char) : Bool :=
  c == ' ' || c == '\t' || c == '\n' || c == '\r'

def ofSign? : Char → Option Token
  | ',' => some .comma
  | ':' => some .colon
  | '[' => some .openBracket
  | ']' => some .closeBracket
  | '\x7b' => some .openBrace
  | '\x7d' => some .closeBrace
  | _ => none

def escaped? : Char → Option Char
  | '"' => some '"'
  | '\\' => some '\\'
  | '/' => some '/'
  | 'b' => some '\x08'
  | 'f' => some '\x0c'
  | 'n' => some '\n'
  | 'r' => some '\r'
  | 't' => some '\t'
  | _ => none

def readUnit (chars : List Char) : Option (Nat × List Char) :=
  if chars.length < 4 then none
  else (Text.numberOfHex? (chars.take 4)).map (·, chars.drop 4)

/-- Reads the second half of a character that takes two numbers. -/
def readSecondUnit (first : Nat) : List Char → Option (Char × List Char)
  | '\\' :: 'u' :: rest => do
    let (second, left) ← readUnit rest
    if first < 0xDC00 ∧ 0xDC00 ≤ second ∧ second < 0xE000 then
      return (Char.ofNat (0x10000 + (first - 0xD800) * 0x400 + (second - 0xDC00)), left)
    else none
  | _ => none

def unescape : List Char → Option (Char × List Char)
  | [] => none
  | c :: rest =>
    if c = 'u' then do
      let (unit, left) ← readUnit rest
      if unit.isValidChar then return (Char.ofNat unit, left) else readSecondUnit unit left
    else (escaped? c).map (·, rest)

theorem length_readUnit {chars left : List Char} {unit : Nat} (h : readUnit chars = some (unit, left)) :
    left.length ≤ chars.length := by
  rw [readUnit] at h
  split at h
  · cases h
  · obtain ⟨n, _, hn⟩ := Option.map_eq_some_iff.1 h
    cases hn
    simp

theorem length_readSecondUnit {first : Nat} {chars left : List Char} {c : Char}
    (h : readSecondUnit first chars = some (c, left)) : left.length ≤ chars.length := by
  unfold readSecondUnit at h
  split at h
  · obtain ⟨⟨second, l⟩, hs, h⟩ := Option.bind_eq_some_iff.1 h
    dsimp only at h
    split at h
    · obtain ⟨-, rfl⟩ := Prod.mk.inj (Option.some.inj h)
      have := length_readUnit hs
      simp only [List.length_cons]
      omega
    · cases h
  · cases h

theorem length_unescape {chars left : List Char} {c : Char} (h : unescape chars = some (c, left)) :
    left.length ≤ chars.length := by
  cases chars with
  | nil => cases h
  | cons first rest =>
    rw [unescape] at h
    rw [List.length_cons]
    split at h
    · obtain ⟨⟨unit, l⟩, hu, h⟩ := Option.bind_eq_some_iff.1 h
      have := length_readUnit hu
      dsimp only at h
      split at h
      · cases h
        omega
      · have := length_readSecondUnit h
        omega
    · obtain ⟨d, _, hd⟩ := Option.map_eq_some_iff.1 h
      cases hd
      exact Nat.le_succ _

def readText : List Char → Option (List Char × List Char)
  | [] => none
  | c :: rest =>
    if c = '"' then some ([], rest)
    else if c = '\\' then
      match _ : unescape rest with
      | none => none
      | some (d, after) => (readText after).map fun (value, left) => (d :: value, left)
    else if 0x20 ≤ c.toNat then (readText rest).map fun (value, left) => (c :: value, left)
    else none
termination_by chars => chars.length
decreasing_by
  · have := length_unescape ‹_›
    simp only [List.length_cons]
    omega
  · simp

/-- The number with the given digits. No number but zero begins with a zero. -/
def numberOfDigits? (digits : List Char) : Option Nat :=
  if digits.head? = some '0' ∧ digits ≠ ['0'] then none else some (Nat.ofDigitChars 10 digits 0)

/-- Reads the token that begins with `c`, or passes over a blank. -/
def read (c : Char) (rest : List Char) : Option (Option Token × List Char) :=
  if isBlank c then some (none, rest)
  else if c = '"' then (readText rest).map fun (value, left) => (some (.text (String.ofList value)), left)
  else if c.isDigit then
    (numberOfDigits? (c :: rest.takeWhile Char.isDigit)).map fun n =>
      (some (.number n), rest.dropWhile Char.isDigit)
  else (ofSign? c).map fun t => (some t, rest)

theorem length_readText {chars value left : List Char} (h : readText chars = some (value, left)) :
    left.length ≤ chars.length := by
  fun_induction readText chars generalizing value with
  | case1 => cases h
  | case2 rest => cases h; simp
  | case3 => cases h
  | case4 rest hq d after hu ih =>
    obtain ⟨⟨v, l⟩, hr, he⟩ := Option.map_eq_some_iff.1 h
    cases he
    have := ih hr
    have := length_unescape ‹_›
    simp only [List.length_cons]
    omega
  | case5 c rest hq hb hp ih =>
    obtain ⟨⟨v, l⟩, hr, he⟩ := Option.map_eq_some_iff.1 h
    cases he
    exact Nat.le_succ_of_le (ih hr)
  | case6 => cases h

theorem length_read {c : Char} {rest left : List Char} {token : Option Token}
    (h : read c rest = some (token, left)) : left.length ≤ rest.length := by
  rw [read] at h
  split at h
  · cases h; exact Nat.le_refl _
  split at h
  · obtain ⟨⟨v, l⟩, hr, he⟩ := Option.map_eq_some_iff.1 h
    cases he
    exact length_readText hr
  split at h
  · obtain ⟨n, _, he⟩ := Option.map_eq_some_iff.1 h
    cases he
    exact (List.dropWhile_suffix _).length_le
  · obtain ⟨t, _, he⟩ := Option.map_eq_some_iff.1 h
    cases he
    exact Nat.le_refl _

def readAll : List Char → Option (List Token)
  | [] => some []
  | c :: rest =>
    match _ : read c rest with
    | none => none
    | some (token, left) => (readAll left).map (token.toList ++ ·)
termination_by chars => chars.length
decreasing_by
  have := length_read ‹_›
  simp only [List.length_cons]
  omega

end Token

/-- What a document stands in: an array or an object whose items or members so far come before it. -/
inductive Frame where
  | items (before : List Json)
  | members (before : List (String × Json)) (name : String)

mutual

/-- Reads the document that stands in the given frames, the innermost one first, and whatever follows it. -/
def value (frames : List Frame) : List Token → Option Json
  | .text content :: rest => finish (.text content) frames rest
  | .number n :: rest => finish (.number n) frames rest
  | .openBracket :: .closeBracket :: rest => finish (.array []) frames rest
  | .openBracket :: rest => value (.items [] :: frames) rest
  | .openBrace :: .closeBrace :: rest => finish (.object []) frames rest
  | .openBrace :: .text name :: .colon :: rest => value (.members [] name :: frames) rest
  | _ => none

def finish (document : Json) : List Frame → List Token → Option Json
  | [], [] => some document
  | .items before :: frames, .comma :: rest => value (.items (before ++ [document]) :: frames) rest
  | .items before :: frames, .closeBracket :: rest => finish (.array (before ++ [document])) frames rest
  | .members before name :: frames, .comma :: .text next :: .colon :: rest =>
    value (.members (before ++ [(name, document)]) next :: frames) rest
  | .members before name :: frames, .closeBrace :: rest =>
    finish (.object (before ++ [(name, document)])) frames rest
  | _, _ => none

end

/-- The document that a text holds, if it holds one and nothing else. -/
def decode? (text : String) : Option Json :=
  (Token.readAll text.toList).bind (value [])

namespace Token

variable {c : Char} {chars rest : List Char} {n : Nat}

theorem readUnit_hex (hn : n < 0x10000) (rest : List Char) :
    readUnit (Text.hex 4 n ++ rest) = some (n, rest) := by
  have hlength := Text.hex_length 4 n
  rw [readUnit, if_neg (by simp), List.take_left' hlength, List.drop_left' hlength, Text.numberOfHex?_hex,
    Nat.mod_eq_of_lt (by simpa using hn), Option.map_some]

theorem unescape_hex (hc : c.toNat < 0x20) (rest : List Char) :
    unescape ('u' :: Text.hex 4 c.toNat ++ rest) = some (c, rest) := by
  have hvalid : c.toNat.isValidChar := c.valid
  rw [List.cons_append, unescape, if_pos rfl, readUnit_hex (by omega)]
  simp [hvalid]

theorem readText_plain (hq : c ≠ '"') (hb : c ≠ '\\') (hc : 0x20 ≤ c.toNat) (rest : List Char) :
    readText (c :: rest) = (readText rest).map fun (value, left) => (c :: value, left) := by
  rw [readText, if_neg hq, if_neg hb, if_pos hc]

theorem readText_escaped (h : unescape chars = some (c, rest)) :
    readText ('\\' :: chars) = (readText rest).map fun (value, left) => (c :: value, left) := by
  rw [readText, if_neg (by decide), if_pos rfl]
  split
  next hnone => rw [h] at hnone; cases hnone
  next hsome => rw [h] at hsome; cases hsome; rfl

theorem readText_escape (c : Char) (rest : List Char) :
    readText (escape c ++ rest) = (readText rest).map fun (value, left) => (c :: value, left) := by
  unfold escape
  split_ifs with hquote hslash hb ht hn hf hr hcontrol
  iterate 7 (subst c; exact readText_escaped rfl)
  · exact readText_escaped (unescape_hex hcontrol rest)
  · exact readText_plain hquote hslash (Nat.le_of_not_lt hcontrol) rest

theorem readText_quoted (text rest : List Char) :
    readText (text.flatMap escape ++ '"' :: rest) = some (text, rest) := by
  induction text with
  | nil => simp [readText]
  | cons c text ih => rw [List.flatMap_cons, List.append_assoc, readText_escape, ih, Option.map_some]

theorem readAll_cons {token : Option Token} (h : read c chars = some (token, rest)) :
    readAll (c :: chars) = (readAll rest).map (token.toList ++ ·) := by
  rw [readAll]
  split
  next hnone => rw [h] at hnone; cases hnone
  next hsome => rw [h] at hsome; cases hsome; rfl

theorem readAll_blank (hc : isBlank c = true) : readAll (c :: rest) = readAll rest := by
  rw [readAll_cons (by rw [read, if_pos hc])]
  simp

theorem readAll_sign {token : Token} (hc : ofSign? c = some token) (rest : List Char) :
    readAll (c :: rest) = (readAll rest).map (token :: ·) := by
  have hread : read c rest = some (some token, rest) := by
    unfold ofSign? at hc
    split at hc <;> cases hc <;> rfl
  rw [readAll_cons hread]
  rfl

theorem readAll_newline (level : Nat) (rest : List Char) : readAll (newline level ++ rest) = readAll rest := by
  rw [newline, List.cons_append, readAll_blank rfl]
  induction 2 * level with
  | zero => rfl
  | succ n ih => rw [List.replicate_succ, List.cons_append, readAll_blank rfl, ih]

theorem readAll_quote (text : String) (rest : List Char) :
    readAll (quote text ++ rest) = (readAll rest).map (.text text :: ·) := by
  have hread : read '"' (text.toList.flatMap escape ++ '"' :: rest) = some (some (.text text), rest) := by
    rw [read, if_neg (by decide), if_pos rfl, readText_quoted]
    simp
  rw [quote, List.cons_append, List.cons_append, List.append_assoc, List.singleton_append, readAll_cons hread]
  rfl

theorem head?_toDigits_ne (hn : n ≠ 0) : (Nat.toDigits 10 n).head? ≠ some '0' := by
  induction n using Nat.base_induction 10 (by decide) with
  | single n hlt => simp [Nat.toDigits_of_lt_base hlt, hn]
  | digit n last hlast hpos ih =>
    rw [← Nat.toDigits_append_toDigits (by decide) hpos hlast, List.head?_append_of_ne_nil _ Nat.toDigits_ne_nil]
    exact ih (by omega)

theorem numberOfDigits?_toDigits (n : Nat) : numberOfDigits? (Nat.toDigits 10 n) = some n := by
  rw [numberOfDigits?, if_neg, Nat.ofDigitChars_ten_toDigits]
  rintro ⟨hhead, hzero⟩
  by_cases hn : n = 0
  · exact hzero (by rw [hn, Nat.toDigits_zero])
  · exact head?_toDigits_ne hn hhead

theorem read_of_isDigit (hc : c.isDigit = true) : read c rest =
    (numberOfDigits? (c :: rest.takeWhile Char.isDigit)).map fun n =>
      (some (.number n), rest.dropWhile Char.isDigit) := by
  have hblank : isBlank c = false := by
    rw [Bool.eq_false_iff]
    intro hb
    simp only [isBlank, Bool.or_eq_true, beq_iff_eq] at hb
    rcases hb with ((rfl | rfl) | rfl) | rfl <;> cases hc
  have hquote : c ≠ '"' := by
    rintro rfl
    cases hc
  rw [read, if_neg (by simp [hblank]), if_neg hquote, if_pos hc]

theorem readAll_digits (n : Nat) (ends : Text.Ends Char.isDigit rest) :
    readAll (Nat.toDigits 10 n ++ rest) = (readAll rest).map (.number n :: ·) := by
  obtain ⟨c, digits, hdigits⟩ := List.exists_cons_of_ne_nil (Nat.toDigits_ne_nil (n := n) (b := 10))
  have hall : ∀ d ∈ c :: digits, d.isDigit = true := fun d hd =>
    Nat.isDigit_of_mem_toDigits (by decide) (by decide) (hdigits ▸ hd)
  have hothers : ∀ d ∈ digits, d.isDigit = true := fun d hd => hall d (List.mem_cons_of_mem c hd)
  have hread : read c (digits ++ rest) = some (some (.number n), rest) := by
    rw [read_of_isDigit (hall c List.mem_cons_self), ends.takeWhile_append hothers, ends.dropWhile_append hothers,
      ← hdigits, numberOfDigits?_toDigits, Option.map_some]
  rw [hdigits, List.cons_append, readAll_cons hread]
  rfl

end Token

def separatorTokens {α : Type} : List α → List Token
  | [] => []
  | _ => [.comma]

@[simp] theorem separatorTokens_cons {α : Type} (first : α) (rest : List α) :
    separatorTokens (first :: rest) = [.comma] :=
  rfl

mutual

def tokens : Json → List Token
  | .text content => [.text content]
  | .number n => [.number n]
  | .array items => .openBracket :: itemTokens items ++ [.closeBracket]
  | .object members => .openBrace :: memberTokens members ++ [.closeBrace]

def itemTokens : List Json → List Token
  | [] => []
  | item :: rest => tokens item ++ separatorTokens rest ++ itemTokens rest

def memberTokens : List (String × Json) → List Token
  | [] => []
  | (name, value) :: rest =>
    .text name :: .colon :: tokens value ++ separatorTokens rest ++ memberTokens rest

end

section Lexing

open Token (readAll)
open Text (Ends)

variable {α : Type} {elements : List α} {rest : List Char}

theorem ends_separator (h : elements = [] → Ends Char.isDigit rest) :
    Ends Char.isDigit (separator elements ++ rest) := by
  cases elements with
  | nil => exact h rfl
  | cons => rintro c ⟨⟩; rfl

theorem readAll_separator (elements : List α) (rest : List Char) :
    readAll (separator elements ++ rest) = (readAll rest).map (separatorTokens elements ++ ·) := by
  cases elements with
  | nil => simp [separator, separatorTokens]
  | cons => exact Token.readAll_sign rfl rest

theorem readAll_enclose {opening closing : Char} {first last : Token} {body : List Char} {inner : List Token}
    (hfirst : Token.ofSign? opening = some first) (hlast : Token.ofSign? closing = some last)
    (hbody : ∀ after, Ends Char.isDigit after → readAll (body ++ after) = (readAll after).map (inner ++ ·))
    (level : Nat) (rest : List Char) :
    readAll (enclose level opening closing body ++ rest) = (readAll rest).map (first :: inner ++ [last] ++ ·) := by
  unfold enclose
  split
  next hempty =>
    have hinner : inner = [] := by
      have := hbody [] (by rintro c ⟨⟩)
      simpa [hempty, readAll] using this
    rw [List.cons_append, List.singleton_append, Token.readAll_sign hfirst, Token.readAll_sign hlast, hinner,
      Option.map_map]
    rfl
  next =>
    have hend : Ends Char.isDigit (newline level ++ closing :: rest) := by rintro c ⟨⟩; rfl
    rw [List.cons_append, List.cons_append, List.cons_append, List.append_assoc, List.append_assoc,
      List.singleton_append, Token.readAll_sign hfirst, hbody _ hend, Token.readAll_newline,
      Token.readAll_sign hlast, Option.map_map, Option.map_map]
    simp [Function.comp_def]

mutual

/-- What has been written of a document is read as its tokens, whatever follows that does not go on with a
number. -/
theorem readAll_characters (level : Nat) (document : Json) (rest : List Char) (ends : Ends Char.isDigit rest) :
    readAll (characters level document ++ rest) = (readAll rest).map (tokens document ++ ·) := by
  match document with
  | .text content => exact Token.readAll_quote content rest
  | .number n => exact Token.readAll_digits n ends
  | .array items => exact readAll_enclose rfl rfl (readAll_itemCharacters (level + 1) items) level rest
  | .object members => exact readAll_enclose rfl rfl (readAll_memberCharacters (level + 1) members) level rest

theorem readAll_itemCharacters (level : Nat) (items : List Json) (rest : List Char)
    (ends : Ends Char.isDigit rest) :
    readAll (itemCharacters level items ++ rest) = (readAll rest).map (itemTokens items ++ ·) := by
  match items with
  | [] => simp [itemCharacters, itemTokens]
  | item :: items =>
    have hends : Ends Char.isDigit (separator items ++ (itemCharacters level items ++ rest)) :=
      ends_separator (by rintro rfl; exact ends)
    simp only [itemCharacters, itemTokens, List.append_assoc]
    rw [Token.readAll_newline, readAll_characters level item _ hends, readAll_separator,
      readAll_itemCharacters level items rest ends]
    simp [Function.comp_def]

theorem readAll_memberCharacters (level : Nat) (members : List (String × Json)) (rest : List Char)
    (ends : Ends Char.isDigit rest) :
    readAll (memberCharacters level members ++ rest) = (readAll rest).map (memberTokens members ++ ·) := by
  match members with
  | [] => simp [memberCharacters, memberTokens]
  | (name, value) :: members =>
    have hends : Ends Char.isDigit (separator members ++ (memberCharacters level members ++ rest)) :=
      ends_separator (by rintro rfl; exact ends)
    simp only [memberCharacters, memberTokens, List.append_assoc, List.cons_append, List.nil_append]
    rw [Token.readAll_newline, Token.readAll_quote, Token.readAll_sign rfl, Token.readAll_blank rfl,
      readAll_characters level value _ hends, readAll_separator, readAll_memberCharacters level members rest ends]
    simp [Function.comp_def]

end

end Lexing

theorem value_openBracket (item : Json) (frames : List Frame) (rest : List Token) :
    value frames (.openBracket :: (tokens item ++ rest)) = value (.items [] :: frames) (tokens item ++ rest) := by
  cases item <;> simp [tokens, value]

mutual

/-- The tokens of a document are read as that document, whatever it stands in and whatever follows. -/
theorem value_tokens (document : Json) (frames : List Frame) (rest : List Token) :
    value frames (tokens document ++ rest) = finish document frames rest := by
  match document with
  | .text content => rfl
  | .number n => rfl
  | .array [] => rfl
  | .array (item :: items) =>
    simp only [tokens, itemTokens, List.append_assoc, List.cons_append, List.nil_append]
    rw [value_openBracket, value_tokens item, finish_items [] items]
    rfl
  | .object [] => rfl
  | .object ((name, member) :: members) =>
    simp only [tokens, memberTokens, List.append_assoc, List.cons_append, List.nil_append]
    rw [value, value_tokens member, finish_members [] members]
    rfl

theorem finish_items (before items : List Json) (document : Json) (frames : List Frame) (rest : List Token) :
    finish document (.items before :: frames) (separatorTokens items ++ (itemTokens items ++ .closeBracket :: rest)) =
      finish (.array (before ++ document :: items)) frames rest := by
  match items with
  | [] => rfl
  | item :: items =>
    simp only [separatorTokens_cons, itemTokens, List.append_assoc, List.cons_append, List.nil_append]
    rw [finish, value_tokens item, finish_items (before ++ [document]) items, List.append_assoc]
    rfl

theorem finish_members (before members : List (String × Json)) (document : Json) (name : String)
    (frames : List Frame) (rest : List Token) :
    finish document (.members before name :: frames)
        (separatorTokens members ++ (memberTokens members ++ .closeBrace :: rest)) =
      finish (.object (before ++ (name, document) :: members)) frames rest := by
  match members with
  | [] => rfl
  | (next, member) :: members =>
    simp only [separatorTokens_cons, memberTokens, List.append_assoc, List.cons_append, List.nil_append]
    rw [finish, value_tokens member, finish_members (before ++ [(name, document)]) members, List.append_assoc]
    rfl

end

theorem decode?_render (document : Json) : decode? document.render = some document := by
  have hread := readAll_characters 0 document [] (by rintro c ⟨⟩)
  have hvalue := value_tokens document [] []
  rw [List.append_nil] at hread hvalue
  rw [decode?, render, String.toList_ofList, hread, Token.readAll, Option.map_some, List.append_nil,
    Option.bind_some, hvalue]
  rfl

end SerialManifest.Json

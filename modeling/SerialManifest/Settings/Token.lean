namespace SerialManifest.Settings

/-- A token. `text` was written in one line between quotes, `block` between three quotes on each side. -/
inductive Token where
  | word (name : String)
  | text (value : String)
  | block (value : String)
  | lineBreak
  | equals
  | dot
  | comma
  | openBracket
  | closeBracket
  | openBrace
  | closeBrace
deriving DecidableEq, Repr

namespace Token

def isBlank (c : Char) : Bool :=
  c == ' ' || c == '\t'

def isPlain (c : Char) : Bool :=
  c == '\t' || (0x20 ≤ c.toNat && c.toNat != 0x7F)

def isWordCharacter (c : Char) : Bool :=
  c.isAlphanum || c == '_' || c == '-'

def ofSign? : Char → Option Token
  | '\n' => some .lineBreak
  | '=' => some .equals
  | '.' => some .dot
  | ',' => some .comma
  | '[' => some .openBracket
  | ']' => some .closeBracket
  | '\x7b' => some .openBrace
  | '\x7d' => some .closeBrace
  | _ => none

def unifyLineBreaks : List Char → List Char
  | '\r' :: '\n' :: rest => '\n' :: unifyLineBreaks rest
  | c :: rest => c :: unifyLineBreaks rest
  | [] => []

def hexDigit? (c : Char) : Option Nat :=
  if '0' ≤ c ∧ c ≤ '9' then some (c.toNat - 48)
  else if 'a' ≤ c ∧ c ≤ 'f' then some (c.toNat - 87)
  else if 'A' ≤ c ∧ c ≤ 'F' then some (c.toNat - 55)
  else none

def characterOfHex? (digits : List Char) : Option Char := do
  let values ← digits.mapM hexDigit?
  let n := values.foldl (fun value digit => value * 16 + digit) 0
  if n.isValidChar then some (Char.ofNat n) else none

def escaped? : Char → Option Char
  | 'b' => some '\x08'
  | 't' => some '\t'
  | 'n' => some '\n'
  | 'f' => some '\x0c'
  | 'r' => some '\r'
  | '"' => some '"'
  | '\\' => some '\\'
  | _ => none

def readNumbered (width : Nat) (chars : List Char) : Option (Char × List Char) :=
  if chars.length < width then none
  else (characterOfHex? (chars.take width)).map (·, chars.drop width)

def unescape : List Char → Option (Char × List Char)
  | [] => none
  | c :: rest =>
    if c = 'u' then readNumbered 4 rest
    else if c = 'U' then readNumbered 8 rest
    else (escaped? c).map (·, rest)

theorem length_readNumbered {width : Nat} {chars rest : List Char} {c : Char}
    (h : readNumbered width chars = some (c, rest)) : rest.length ≤ chars.length := by
  rw [readNumbered] at h
  split at h
  · cases h
  · obtain ⟨d, _, hd⟩ := Option.map_eq_some_iff.1 h
    cases hd
    simp

theorem length_unescape {chars rest : List Char} {c : Char} (h : unescape chars = some (c, rest)) :
    rest.length < chars.length := by
  cases chars with
  | nil => cases h
  | cons first others =>
    rw [unescape] at h
    rw [List.length_cons, Nat.lt_succ_iff]
    split at h
    · exact length_readNumbered h
    split at h
    · exact length_readNumbered h
    · obtain ⟨d, _, hd⟩ := Option.map_eq_some_iff.1 h
      cases hd
      exact Nat.le_refl _

def readText : List Char → Option (List Char × List Char)
  | [] => none
  | c :: rest =>
    if c = '"' then some ([], rest)
    else if c = '\\' then
      match _ : unescape rest with
      | none => none
      | some (d, after) => (readText after).map fun (value, left) => (d :: value, left)
    else if isPlain c then (readText rest).map fun (value, left) => (c :: value, left)
    else none
termination_by chars => chars.length
decreasing_by
  · have := length_unescape ‹_›
    simp only [List.length_cons]
    omega
  · simp

def readLiteral : List Char → Option (List Char × List Char)
  | [] => none
  | c :: rest =>
    if c = '\x27' then some ([], rest)
    else if isPlain c then (readLiteral rest).map fun (value, left) => (c :: value, left)
    else none

def closes (quote : Char) (chars : List Char) : Bool :=
  [quote, quote, quote].isPrefixOf chars

/-- Reads the quotes that end a block. Up to two more than three belong to its value. -/
def readClosing (quote : Char) (chars : List Char) : List Char × List Char :=
  let extra := ((chars.drop 3).takeWhile (· == quote)).take 2
  (extra, chars.drop (3 + extra.length))

def atLineEnd (chars : List Char) : Bool :=
  (chars.dropWhile isBlank).head? == some '\n'

def readLiteralBlock : List Char → Option (List Char × List Char)
  | [] => none
  | c :: rest =>
    if closes '\x27' (c :: rest) then some (readClosing '\x27' (c :: rest))
    else if isPlain c || c == '\n' then
      (readLiteralBlock rest).map fun (value, left) => (c :: value, left)
    else none

/-- Reads a block up to the quotes that close it. Behind a backslash that ends its line, blanks and line
breaks are passed over, `folding` being set. -/
def readBlock (folding : Bool) : List Char → Option (List Char × List Char)
  | [] => none
  | c :: rest =>
    if closes '"' (c :: rest) then some (readClosing '"' (c :: rest))
    else if c = '\\' then
      if atLineEnd rest then readBlock true rest
      else match _ : unescape rest with
        | none => none
        | some (d, after) => (readBlock false after).map fun (value, left) => (d :: value, left)
    else if folding && (isBlank c || c == '\n') then readBlock true rest
    else if isPlain c || c == '\n' then
      (readBlock false rest).map fun (value, left) => (c :: value, left)
    else none
termination_by chars => chars.length
decreasing_by
  · simp
  · have := length_unescape ‹_›
    simp only [List.length_cons]
    omega
  all_goals simp

/-- A line break that directly follows the opening quotes of a block does not belong to its value. -/
def dropFirstBreak : List Char → List Char
  | '\n' :: rest => rest
  | chars => chars

def readQuoted (quote : Char) (text block : List Char → Option (List Char × List Char))
    (rest : List Char) : Option (Token × List Char) :=
  if [quote, quote].isPrefixOf rest then
    (block (dropFirstBreak (rest.drop 2))).map fun (value, left) => (.block (String.ofList value), left)
  else (text rest).map fun (value, left) => (.text (String.ofList value), left)

/-- Reads the token that begins with `c`, or passes over a blank or a comment. -/
def read (c : Char) (rest : List Char) : Option (Option Token × List Char) :=
  if isBlank c then some (none, rest)
  else if c = '#' then some (none, rest.dropWhile isPlain)
  else if isWordCharacter c then
    some (some (.word (String.ofList (c :: rest.takeWhile isWordCharacter))), rest.dropWhile isWordCharacter)
  else if c = '"' then (readQuoted c readText (readBlock false) rest).map fun (t, left) => (some t, left)
  else if c = '\x27' then
    (readQuoted c readLiteral readLiteralBlock rest).map fun (t, left) => (some t, left)
  else (ofSign? c).map fun t => (some t, rest)

theorem length_readText {chars value left : List Char} (h : readText chars = some (value, left)) :
    left.length ≤ chars.length := by
  fun_induction readText chars generalizing value with
  | case1 => cases h
  | case2 rest => cases h; simp
  | case3 => cases h
  | case4 rest hq d after hu ih =>
    obtain ⟨⟨v, l⟩, hr, he⟩ := Option.map_eq_some_iff.1 h
    cases he
    have := ih hr
    have := length_unescape ‹_›
    simp only [List.length_cons]
    omega
  | case5 c rest hq hb hp ih =>
    obtain ⟨⟨v, l⟩, hr, he⟩ := Option.map_eq_some_iff.1 h
    cases he
    have := ih hr
    simp only [List.length_cons]
    omega
  | case6 => cases h

theorem length_readLiteral {chars value left : List Char}
    (h : readLiteral chars = some (value, left)) : left.length ≤ chars.length := by
  fun_induction readLiteral chars generalizing value with
  | case1 => cases h
  | case2 rest => cases h; simp
  | case3 c rest hq hp ih =>
    obtain ⟨⟨v, l⟩, hr, he⟩ := Option.map_eq_some_iff.1 h
    cases he
    have := ih hr
    simp only [List.length_cons]
    omega
  | case4 => cases h

theorem length_readClosing (quote : Char) (chars : List Char) :
    (readClosing quote chars).2.length ≤ chars.length := by
  simp [readClosing]

theorem length_readLiteralBlock {chars value left : List Char}
    (h : readLiteralBlock chars = some (value, left)) : left.length ≤ chars.length := by
  fun_induction readLiteralBlock chars generalizing value with
  | case1 => cases h
  | case2 c rest hc =>
    have := length_readClosing '\x27' (c :: rest)
    rw [Option.some.inj h] at this
    exact this
  | case3 c rest hq hp ih =>
    obtain ⟨⟨v, l⟩, hr, he⟩ := Option.map_eq_some_iff.1 h
    cases he
    have := ih hr
    simp only [List.length_cons]
    omega
  | case4 => cases h

theorem length_readBlock {folding : Bool} {chars value left : List Char}
    (h : readBlock folding chars = some (value, left)) : left.length ≤ chars.length := by
  fun_induction readBlock folding chars generalizing value with
  | case1 => cases h
  | case2 folding c rest hc =>
    have := length_readClosing '"' (c :: rest)
    rw [Option.some.inj h] at this
    exact this
  | case3 folding rest hc he ih =>
    have := ih h
    simp only [List.length_cons]
    omega
  | case4 => cases h
  | case5 folding rest hc he d after hu ih =>
    obtain ⟨⟨v, l⟩, hr, he⟩ := Option.map_eq_some_iff.1 h
    cases he
    have := ih hr
    have := length_unescape ‹_›
    simp only [List.length_cons]
    omega
  | case6 folding c rest hc hb hf ih =>
    have := ih h
    simp only [List.length_cons]
    omega
  | case7 folding c rest hc hb hf hp ih =>
    obtain ⟨⟨v, l⟩, hr, he⟩ := Option.map_eq_some_iff.1 h
    cases he
    have := ih hr
    simp only [List.length_cons]
    omega
  | case8 => cases h

theorem length_dropFirstBreak (chars : List Char) :
    (dropFirstBreak chars).length ≤ chars.length := by
  unfold dropFirstBreak
  split <;> simp

theorem length_readQuoted {quote : Char} {text block : List Char → Option (List Char × List Char)}
    (ht : ∀ {chars value left}, text chars = some (value, left) → left.length ≤ chars.length)
    (hb : ∀ {chars value left}, block chars = some (value, left) → left.length ≤ chars.length)
    {rest left : List Char} {token : Token} (h : readQuoted quote text block rest = some (token, left)) :
    left.length ≤ rest.length := by
  rw [readQuoted] at h
  split at h
  · obtain ⟨⟨v, l⟩, hr, he⟩ := Option.map_eq_some_iff.1 h
    cases he
    have := hb hr
    have := length_dropFirstBreak (rest.drop 2)
    simp only [List.length_drop] at this
    omega
  · obtain ⟨⟨v, l⟩, hr, he⟩ := Option.map_eq_some_iff.1 h
    cases he
    exact ht hr

theorem length_read {c : Char} {rest left : List Char} {token : Option Token}
    (h : read c rest = some (token, left)) : left.length ≤ rest.length := by
  rw [read] at h
  split at h
  · cases h; exact Nat.le_refl _
  split at h
  · cases h; exact (List.dropWhile_suffix _).length_le
  split at h
  · cases h; exact (List.dropWhile_suffix _).length_le
  split at h
  · obtain ⟨⟨v, l⟩, hr, he⟩ := Option.map_eq_some_iff.1 h
    cases he
    exact length_readQuoted length_readText length_readBlock hr
  split at h
  · obtain ⟨⟨v, l⟩, hr, he⟩ := Option.map_eq_some_iff.1 h
    cases he
    exact length_readQuoted length_readLiteral length_readLiteralBlock hr
  · obtain ⟨t, _, he⟩ := Option.map_eq_some_iff.1 h
    cases he
    exact Nat.le_refl _

def readAll : List Char → Option (List Token)
  | [] => some []
  | c :: rest =>
    match _ : read c rest with
    | none => none
    | some (token, left) => (readAll left).map (token.toList ++ ·)
termination_by chars => chars.length
decreasing_by
  have := length_read ‹_›
  simp only [List.length_cons]
  omega

def byteOrderMark : Char := Char.ofNat 0xFEFF

def ofDocument (document : String) : Option (List Token) :=
  let chars := document.toList
  let body := if chars.head? = some byteOrderMark then chars.tail else chars
  readAll (unifyLineBreaks body)

end Token

end SerialManifest.Settings

namespace SerialManifest.Text.Utf8

/-- Where the reader stands: between characters, or inside one whose next byte must lie between `low`
and `high`, with `more` further bytes after it and `value` read so far. -/
inductive State where
  | between
  | inside (low high : UInt8) (more value : Nat)
deriving DecidableEq, Repr

/-- Reads a byte as the first of a character. A finished character is `some c`, a damaged part `none`. -/
def start (b : UInt8) : List (Option Char) × State :=
  if b < 0x80 then ([some (Char.ofNat b.toNat)], .between)
  else if b < 0xC2 then ([none], .between)
  else if b < 0xE0 then ([], .inside 0x80 0xBF 0 (b.toNat - 0xC0))
  else if b < 0xF0 then
    ([], .inside (if b = 0xE0 then 0xA0 else 0x80) (if b = 0xED then 0x9F else 0xBF) 1 (b.toNat - 0xE0))
  else if b < 0xF5 then
    ([], .inside (if b = 0xF0 then 0x90 else 0x80) (if b = 0xF4 then 0x8F else 0xBF) 2 (b.toNat - 0xF0))
  else ([none], .between)

/-- The characters of a byte string in order, `none` standing for a damaged part. -/
def pieces : State → List UInt8 → List (Option Char)
  | .between, [] => []
  | .inside _ _ _ _, [] => [none]
  | .between, b :: rest => (start b).1 ++ pieces (start b).2 rest
  | .inside low high more value, b :: rest =>
    if low ≤ b ∧ b ≤ high then
      match more with
      | 0 => some (Char.ofNat (value * 64 + (b.toNat - 0x80))) :: pieces .between rest
      | more + 1 => pieces (.inside 0x80 0xBF more (value * 64 + (b.toNat - 0x80))) rest
    else none :: ((start b).1 ++ pieces (start b).2 rest)

/-- The text with U+FFFD for each damaged part. -/
def decodeLossy (bytes : List UInt8) : String :=
  String.ofList ((pieces .between bytes).map (·.getD (Char.ofNat 0xFFFD)))

def decode? (bytes : List UInt8) : Option String :=
  ((pieces .between bytes).mapM id).map String.ofList

def encode (text : String) : List UInt8 :=
  text.toList.flatMap String.utf8EncodeChar

end SerialManifest.Text.Utf8

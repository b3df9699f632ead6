namespace SerialManifest.Text.Terminal

/-- What the next character is taken for: as text, after an escape character, after an intermediate
character behind it, in a control sequence, in a system command, in the three parts that open a device
string, or in a string. -/
inductive Mode where
  | ground
  | escape
  | escapeIntermediate
  | sequence
  | command
  | deviceStart
  | deviceParameters
  | deviceIntermediates
  | string
deriving DecidableEq, Repr

def isBlank (c : Char) : Bool :=
  c == '\t' || c == '\n' || c == '\x0C' || c == '\r'

def within (low high c : Char) : Bool :=
  low ≤ c && c ≤ high

/-- Whether a character is shown. Blanks take effect inside sequences, but not inside strings. -/
def Mode.shows : Mode → Char → Bool
  | .ground, c => isBlank c || (' ' ≤ c && c != '\x7F')
  | .escape, c | .escapeIntermediate, c | .sequence, c => isBlank c
  | _, _ => false

/-- Whether the last byte that ends a string is part of a character. -/
def endsString (c : Char) : Bool :=
  (String.utf8EncodeChar c).contains 0x9C

/-- Where a character leads that is not shown and neither cancels a sequence nor starts one. -/
def Mode.proceed : Mode → Char → Mode
  | .ground, _ => .ground
  | .escape, c =>
    if c = '[' then .sequence
    else if c = ']' then .command
    else if c = 'P' then .deviceStart
    else if c = 'X' ∨ c = '^' ∨ c = '_' then .string
    else if within ' ' '/' c then .escapeIntermediate
    else if within '0' '~' c then .ground
    else .escape
  | .escapeIntermediate, c => if within '0' '~' c then .ground else .escapeIntermediate
  | .sequence, c => if within '@' '~' c then .ground else .sequence
  | .command, c => if c = '\x07' then .ground else .command
  | .deviceStart, c =>
    if within '@' '~' c then .string
    else if within ' ' '/' c then .deviceIntermediates
    else if within '0' '?' c then .deviceParameters
    else .deviceStart
  | .deviceParameters, c =>
    if within '<' '~' c then .string
    else if within ' ' '/' c then .deviceIntermediates
    else .deviceParameters
  | .deviceIntermediates, c => if within '0' '~' c then .string else .deviceIntermediates
  | .string, c => if endsString c then .ground else .string

def Mode.next (mode : Mode) (c : Char) : Mode :=
  if c = '\x18' ∨ c = '\x1A' then .ground
  else if c = '\x1B' then .escape
  else mode.proceed c

/-- What is shown of a text. A blank inside a sequence opens the sequence: what follows is shown as text up
to the first character that cannot be, and there the sequence goes on. A character beyond ASCII ends it. -/
def shown : (mode : Mode) → (opened : Bool) → List Char → List Char
  | _, _, [] => []
  | mode, opened, c :: rest =>
    if (if opened then Mode.ground else mode).shows c then
      c :: shown (if c ≤ '\x7F' then mode else .ground) true rest
    else shown (mode.next c) false rest

/-- Text for a terminal as it is written where there is none, without control sequences, the strings that
controls open, and control characters other than blanks. -/
def plain (text : String) : String :=
  String.ofList (shown .ground false text.toList)

def bold (text : String) : String :=
  "\x1B[1m" ++ text ++ "\x1B[0m"

end SerialManifest.Text.Terminal

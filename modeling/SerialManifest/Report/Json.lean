import SerialManifest.Text.Hex

namespace SerialManifest

/-- A JSON document without truth values and without numbers below zero or with fractions. -/
inductive Json where
  | text (value : String)
  | number (value : Nat)
  | array (items : List Json)
  | object (members : List (String × Json))
deriving Repr

namespace Json

def escape (c : Char) : List Char :=
  if c = '"' then ['\\', '"']
  else if c = '\\' then ['\\', '\\']
  else if c = '\x08' then ['\\', 'b']
  else if c = '\t' then ['\\', 't']
  else if c = '\n' then ['\\', 'n']
  else if c = '\x0c' then ['\\', 'f']
  else if c = '\r' then ['\\', 'r']
  else if c.toNat < 0x20 then '\\' :: 'u' :: Text.hex 4 c.toNat
  else [c]

def quote (text : String) : List Char :=
  '"' :: text.toList.flatMap escape ++ ['"']

def newline (level : Nat) : List Char :=
  '\n' :: List.replicate (2 * level) ' '

def separator {α : Type} : List α → List Char
  | [] => []
  | _ => [',']

def enclose (level : Nat) (opening closing : Char) (body : List Char) : List Char :=
  if body = [] then [opening, closing] else opening :: body ++ newline level ++ [closing]

mutual

def characters (level : Nat) : Json → List Char
  | .text value => quote value
  | .number value => Nat.toDigits 10 value
  | .array items => enclose level '[' ']' (itemCharacters (level + 1) items)
  | .object members => enclose level '\x7b' '\x7d' (memberCharacters (level + 1) members)

def itemCharacters (level : Nat) : List Json → List Char
  | [] => []
  | item :: rest =>
    newline level ++ characters level item ++ separator rest ++ itemCharacters level rest

def memberCharacters (level : Nat) : List (String × Json) → List Char
  | [] => []
  | (name, value) :: rest =>
    newline level ++ quote name ++ [':', ' '] ++ characters level value ++ separator rest ++
      memberCharacters level rest

end

def render (document : Json) : String :=
  String.ofList (characters 0 document)

end Json

end SerialManifest

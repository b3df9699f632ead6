import SerialManifest.Text.Hex

namespace SerialManifest.ClassFile

inductive ConstantKind where
  | utf8
  | classRef
deriving DecidableEq, Repr

inductive FormatError where
  | badMagic (found : Nat)
  | truncated (offset : Nat)
  | unknownTag (tag index : Nat)
  | badConstant (index : Nat) (expected : ConstantKind)
deriving DecidableEq, Repr

def ConstantKind.name : ConstantKind → String
  | .utf8 => "Utf8"
  | .classRef => "Class"

def FormatError.message : FormatError → String
  | .badMagic found => "bad magic number 0x" ++ String.ofList ((Text.hex 8 found).map Char.toUpper)
  | .truncated offset => "unexpected end of data at offset " ++ toString offset
  | .unknownTag tag index =>
    "unknown constant pool tag " ++ toString tag ++ " at index " ++ toString index
  | .badConstant index expected =>
    "constant pool index " ++ toString index ++ " is not a " ++ expected.name ++ " entry"

/-- The bytes still to be read and how many were read before them. -/
structure Cursor where
  rest : List UInt8
  offset : Nat
deriving DecidableEq, Repr

/-- A reader of some of the bytes that lie ahead. -/
abbrev Decoder (α : Type) := StateT Cursor (Except FormatError) α

def bigEndian (bytes : List UInt8) : Nat :=
  bytes.foldl (fun value b => value * 256 + b.toNat) 0

namespace Decoder

/-- Takes so many bytes. Where fewer are left it takes none and fails at the place where it began. -/
def take (n : Nat) : Decoder (List UInt8) := fun cursor =>
  let taken := cursor.rest.take n
  if taken.length = n then .ok (taken, ⟨cursor.rest.drop n, cursor.offset + n⟩)
  else .error (.truncated cursor.offset)

def skip (n : Nat) : Decoder Unit := do
  let _ ← take n
  return ()

def unsigned (n : Nat) : Decoder Nat := do
  return bigEndian (← take n)

def u8 : Decoder Nat := unsigned 1

def u16 : Decoder Nat := unsigned 2

def u32 : Decoder Nat := unsigned 4

def repeated {α : Type} (item : Decoder α) : (n : Nat) → Decoder (List α)
  | 0 => return []
  | n + 1 => do
    let first ← item
    let others ← repeated item n
    return first :: others

def counted {α : Type} (item : Decoder α) : Decoder (List α) := do
  repeated item (← u16)

theorem take_of_append (bytes rest : List UInt8) (offset : Nat) :
    take bytes.length ⟨bytes ++ rest, offset⟩ = .ok (bytes, ⟨rest, offset + bytes.length⟩) := by
  simp [take]

theorem take_eq_error {n : Nat} {cursor : Cursor} (h : cursor.rest.length < n) :
    take n cursor = .error (.truncated cursor.offset) := by
  have : ¬ min n cursor.rest.length = n := by omega
  simp [take, this]

end Decoder

end SerialManifest.ClassFile

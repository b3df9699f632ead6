import SerialManifest.ClassFile.Decoder
import SerialManifest.Text.Basic
import SerialManifest.Text.Utf8

namespace SerialManifest.ClassFile

/-- One slot of the table. Only texts and class references are ever looked up. -/
inductive Constant where
  | unused
  | text (value : String)
  | classRef (nameIndex : Nat)
  | other
deriving DecidableEq, Repr

/-- The table of constants that a class file refers to by number. Slot 0 is never used, and of the two slots
that a long or a double takes up the second is not used either. -/
structure ConstantPool where
  slots : List Constant
deriving DecidableEq, Repr

inductive Layout where
  | text
  | classRef
  | plain (size : Nat)
  | wide (size : Nat)
deriving DecidableEq, Repr

def Layout.ofTag? : Nat → Option Layout
  | 1 => some .text
  | 3 | 4 => some (.plain 4)
  | 5 | 6 => some (.wide 8)
  | 7 => some .classRef
  | 8 | 16 | 19 | 20 => some (.plain 2)
  | 9 | 10 | 11 | 12 | 17 | 18 => some (.plain 4)
  | 15 => some (.plain 3)
  | _ => none

/-- A constant and whether it takes up a second slot; `index` is its slot. -/
def constant (index : Nat) : Decoder (Constant × Bool) := do
  let tag ← Decoder.u8
  match Layout.ofTag? tag with
  | none => throw (.unknownTag tag index)
  | some .text =>
    let length ← Decoder.u16
    return (.text (Text.Utf8.decodeLossy (← Decoder.take length)), false)
  | some .classRef => return (.classRef (← Decoder.u16), false)
  | some (.plain size) =>
    Decoder.skip size
    return (.other, false)
  | some (.wide size) =>
    Decoder.skip size
    return (.other, true)

/-- The slots from `index` until `wanted` slots are filled. A wide constant in the last place fills one
more. Slots are counted without a bound. In a table of 65,535 slots whose last holds a wide constant, the
number after that constant needs more than 16 bits: how a reader that counts in 16 bits takes such a table is
left out here. -/
def constants (index : Nat) : (wanted : Nat) → Decoder (List Constant)
  | 0 => return []
  | wanted + 1 => do
    let (first, wide) ← constant index
    if wide then
      return first :: .unused :: (← constants (index + 2) (wanted - 1))
    else
      return first :: (← constants (index + 1) wanted)
termination_by wanted => wanted

namespace ConstantPool

def decoder : Decoder ConstantPool := do
  let count ← Decoder.u16
  return ⟨.unused :: (← constants 1 (count - 1))⟩

def text (pool : ConstantPool) (index : Nat) : Except FormatError String :=
  match pool.slots[index]? with
  | some (.text value) => .ok value
  | _ => .error (.badConstant index .utf8)

def className (pool : ConstantPool) (index : Nat) : Except FormatError String :=
  match pool.slots[index]? with
  | some (.classRef nameIndex) => do
    let name ← pool.text nameIndex
    return String.ofList (Text.replace '/' '.' name.toList)
  | _ => .error (.badConstant index .classRef)

end ConstantPool

end SerialManifest.ClassFile

import SerialManifest.ClassFile.Basic
import SerialManifest.ClassFile.ConstantPool

namespace SerialManifest.ClassFile

def magic : Nat := 0xCAFEBABE

/-- The attribute that tells how classes are nested. -/
def innerClasses : String := "InnerClasses"

def skipAttribute : Decoder Unit := do
  Decoder.skip 2
  Decoder.skip (← Decoder.u32)

def skipAttributes : Decoder Unit := do
  let _ ← Decoder.counted skipAttribute
  return ()

def accessFlags : Decoder AccessFlags := do
  return ⟨UInt16.ofNat (← Decoder.u16)⟩

def fieldDecoder (pool : ConstantPool) : Decoder Field := do
  let access ← accessFlags
  let name ← pool.text (← Decoder.u16)
  let descriptor ← pool.text (← Decoder.u16)
  skipAttributes
  return { name, descriptor, access }

def skipMethod : Decoder Unit := do
  Decoder.skip 6
  skipAttributes

def superclass (pool : ConstantPool) : Decoder (Option String) := do
  let index ← Decoder.u16
  if index = 0 then return none
  else return some (← pool.className index)

/-- One entry of the nesting table, kept if it is about the class called `name`. -/
def nestingEntry (pool : ConstantPool) (name : String) : Decoder (Option Nesting) := do
  let inner ← Decoder.u16
  Decoder.skip 2
  let simple ← Decoder.u16
  Decoder.skip 2
  if (← pool.className inner) = name then
    if simple = 0 then return some ⟨none⟩
    else return some ⟨some (← pool.text simple)⟩
  else return none

/-- One attribute of the class; what it says about the nesting of the class called `name`. The nesting table
ends behind its last line, whatever length its header gives. -/
def classAttribute (pool : ConstantPool) (name : String) : Decoder (List Nesting) := do
  let label ← pool.text (← Decoder.u16)
  let length ← Decoder.u32
  if label = innerClasses then
    return (← Decoder.counted (nestingEntry pool name)).filterMap id
  else
    Decoder.skip length
    return []

/-- A whole class file. The last word on the nesting of the class counts. -/
def decoder : Decoder ClassFile := do
  let found ← Decoder.u32
  if found ≠ magic then throw (.badMagic found)
  Decoder.skip 4
  let pool ← ConstantPool.decoder
  let access ← accessFlags
  let name ← pool.className (← Decoder.u16)
  let superName ← superclass pool
  let interfaces ← Decoder.counted (do pool.className (← Decoder.u16))
  let fields ← Decoder.counted (fieldDecoder pool)
  let _ ← Decoder.counted skipMethod
  let nestings ← Decoder.counted (classAttribute pool name)
  return { access, name, superName, interfaces, fields, nesting := nestings.flatten.getLast? }

/-- The class that a byte string begins with. Bytes after it are ignored. -/
def parse (bytes : List UInt8) : Except FormatError ClassFile :=
  (decoder.run ⟨bytes, 0⟩).map (·.1)

end SerialManifest.ClassFile

import Mathlib.Algebra.GroupWithZero.Nat
import SerialManifest.ClassFile.Basic
import SerialManifest.Proofs.DecoderLanguage
import SerialManifest.Text.Basic
import SerialManifest.Text.Utf8

namespace SerialManifest.ClassFile

open Decoder (encodeList)

/-- The tags of the constants that nothing looks up, and the lengths of what follows them. -/
def bodyLengths : List (Nat × Nat) :=
  [(3, 4), (4, 4), (5, 8), (6, 8), (8, 2), (9, 4), (10, 4), (11, 4), (12, 4), (15, 3), (16, 2), (17, 4),
    (18, 4), (19, 2), (20, 2)]

inductive StoredConstant where
  | text (bytes : List UInt8) (fits : bytes.length < 2 ^ 16)
  | classRef (nameIndex : UInt16)
  | other (tag : UInt8) (body : List UInt8) (known : (tag.toNat, body.length) ∈ bodyLengths)

namespace StoredConstant

def encode : StoredConstant → List UInt8
  | text bytes _ => 1 :: numeral 2 bytes.length ++ bytes
  | classRef nameIndex => 7 :: numeral 2 nameIndex.toNat
  | other tag body _ => tag :: body

/-- The number of slots that a constant takes up: two for a long and a double. -/
def width : StoredConstant → Nat
  | other tag _ _ => if tag = 5 ∨ tag = 6 then 2 else 1
  | _ => 1

theorem width_pos (constant : StoredConstant) : 0 < constant.width := by
  unfold width
  split
  · split <;> decide
  · decide

end StoredConstant

def slotCount (constants : List StoredConstant) : Nat :=
  (constants.map StoredConstant.width).sum

/-- Each of the constants starts in one of so many slots, and they leave none of these empty. The second
slot of the last one may lie beyond. -/
structure Fills (slots : Nat) (constants : List StoredConstant) : Prop where
  covered : slots ≤ slotCount constants
  started : ∀ lead last, constants = lead ++ [last] → slotCount lead < slots

/-- The constants with the number of slots declared for them, counting slot 0. -/
structure StoredPool where
  declared : UInt16
  constants : List StoredConstant
  fills : Fills (declared.toNat - 1) constants

namespace StoredPool

def encode (pool : StoredPool) : List UInt8 :=
  numeral 2 pool.declared.toNat ++ pool.constants.flatMap StoredConstant.encode

def StartsAt (pool : StoredPool) (slot : Nat) (constant : StoredConstant) : Prop :=
  ∃ lead rest, pool.constants = lead ++ constant :: rest ∧ slot = slotCount lead + 1

def TextAt (pool : StoredPool) (slot : UInt16) (text : String) : Prop :=
  ∃ bytes fits, pool.StartsAt slot.toNat (.text bytes fits) ∧ text = Text.Utf8.decodeLossy bytes

def ClassAt (pool : StoredPool) (slot : UInt16) (name : String) : Prop :=
  ∃ nameIndex text, pool.StartsAt slot.toNat (.classRef nameIndex) ∧ pool.TextAt nameIndex text ∧
    name = String.ofList (Text.replace '/' '.' text.toList)

end StoredPool

structure StoredAttribute where
  name : UInt16
  body : List UInt8
  fits : body.length < 2 ^ 32

def StoredAttribute.encode (stored : StoredAttribute) : List UInt8 :=
  numeral 2 stored.name.toNat ++ numeral 4 stored.body.length ++ stored.body

structure StoredMember where
  access : UInt16
  name : UInt16
  descriptor : UInt16
  attributes : List StoredAttribute
  fits : attributes.length < 2 ^ 16

def StoredMember.encode (member : StoredMember) : List UInt8 :=
  numeral 2 member.access.toNat ++ numeral 2 member.name.toNat ++ numeral 2 member.descriptor.toNat ++
    encodeList StoredAttribute.encode member.attributes

structure StoredNesting where
  inner : UInt16
  outer : UInt16
  simpleName : UInt16
  access : UInt16

def StoredNesting.encode (nesting : StoredNesting) : List UInt8 :=
  numeral 2 nesting.inner.toNat ++ numeral 2 nesting.outer.toNat ++ numeral 2 nesting.simpleName.toNat ++
    numeral 2 nesting.access.toNat

/-- An attribute of a class. The table of nested classes ends after its last line, and the length in front
of it can be any. -/
inductive StoredClassAttribute where
  | plain (stored : StoredAttribute)
  | nestings (name : UInt16) (length : UInt32) (lines : List StoredNesting) (fits : lines.length < 2 ^ 16)

namespace StoredClassAttribute

def encode : StoredClassAttribute → List UInt8
  | plain stored => stored.encode
  | nestings name length lines _ =>
    numeral 2 name.toNat ++ numeral 4 length.toNat ++ encodeList StoredNesting.encode lines

def name : StoredClassAttribute → UInt16
  | plain stored => stored.name
  | nestings name _ _ _ => name

def lines : StoredClassAttribute → List StoredNesting
  | plain _ => []
  | nestings _ _ lines _ => lines

def isTable : StoredClassAttribute → Bool
  | plain _ => false
  | nestings _ _ _ _ => true

end StoredClassAttribute

structure StoredClass where
  minorVersion : UInt16
  majorVersion : UInt16
  pool : StoredPool
  access : UInt16
  this : UInt16
  super : UInt16
  interfaces : List UInt16
  fields : List StoredMember
  methods : List StoredMember
  attributes : List StoredClassAttribute
  interfacesFit : interfaces.length < 2 ^ 16
  fieldsFit : fields.length < 2 ^ 16
  methodsFit : methods.length < 2 ^ 16
  attributesFit : attributes.length < 2 ^ 16

namespace StoredClass

def encodeMembers (stored : StoredClass) : List UInt8 :=
  numeral 2 stored.access.toNat ++ numeral 2 stored.this.toNat ++ numeral 2 stored.super.toNat ++
    encodeList (fun slot => numeral 2 slot.toNat) stored.interfaces ++
    encodeList StoredMember.encode stored.fields ++ encodeList StoredMember.encode stored.methods ++
    encodeList StoredClassAttribute.encode stored.attributes

def encode (stored : StoredClass) : List UInt8 :=
  [0xCA, 0xFE, 0xBA, 0xBE] ++ numeral 2 stored.minorVersion.toNat ++ numeral 2 stored.majorVersion.toNat ++
    stored.pool.encode ++ stored.encodeMembers

def nestings (stored : StoredClass) : List StoredNesting :=
  stored.attributes.flatMap StoredClassAttribute.lines

end StoredClass

/-- What a slot leads to that need not be given. Slot 0 stands for nothing. -/
def OptionalAt {α : Type} (At : UInt16 → α → Prop) (slot : UInt16) : Option α → Prop
  | none => slot = 0
  | some value => slot ≠ 0 ∧ At slot value

namespace StoredPool

structure DescribesField (pool : StoredPool) (stored : StoredMember) (field : Field) : Prop where
  access : field.access = ⟨stored.access⟩
  name : pool.TextAt stored.name field.name
  descriptor : pool.TextAt stored.descriptor field.descriptor

/-- A line about the class of a name that has a proper simple name, or about another class. -/
def WellNested (pool : StoredPool) (name : String) (line : StoredNesting) : Prop :=
  ∃ inner, pool.ClassAt line.inner inner ∧
    (inner = name → ∃ simpleName, OptionalAt pool.TextAt line.simpleName simpleName)

/-- What lines about nested classes say about the class of a name: the last one about it counts. -/
def DescribesNesting (pool : StoredPool) (name : String) (lines : List StoredNesting) :
    Option Nesting → Prop
  | none => ∀ line ∈ lines, ¬ pool.ClassAt line.inner name
  | some nesting => ∃ lead line rest, lines = lead ++ line :: rest ∧ pool.ClassAt line.inner name ∧
      OptionalAt pool.TextAt line.simpleName nesting.simpleName ∧
      ∀ later ∈ rest, ¬ pool.ClassAt later.inner name

/-- The names of the attributes can be told, and those of tables, and no others, are `InnerClasses`. -/
def WellNamed (pool : StoredPool) (stored : StoredClassAttribute) : Prop :=
  ∃ label, pool.TextAt stored.name label ∧ (label = "InnerClasses" ↔ stored.isTable = true)

end StoredPool

/-- What a stored class says. -/
structure StoredClass.Describes (stored : StoredClass) (file : ClassFile) : Prop where
  access : file.access = ⟨stored.access⟩
  name : stored.pool.ClassAt stored.this file.name
  superName : OptionalAt stored.pool.ClassAt stored.super file.superName
  interfaces : List.Forall₂ stored.pool.ClassAt stored.interfaces file.interfaces
  fields : List.Forall₂ stored.pool.DescribesField stored.fields file.fields
  attributes : ∀ item ∈ stored.attributes, stored.pool.WellNamed item
  lines : ∀ line ∈ stored.nestings, stored.pool.WellNested file.name line
  nesting : stored.pool.DescribesNesting file.name stored.nestings file.nesting

theorem slotCount_nil : slotCount [] = 0 :=
  rfl

theorem slotCount_cons (first : StoredConstant) (rest : List StoredConstant) :
    slotCount (first :: rest) = first.width + slotCount rest := by
  simp [slotCount]

theorem fills_zero_iff {constants : List StoredConstant} : Fills 0 constants ↔ constants = [] := by
  constructor
  · intro h
    rcases List.eq_nil_or_concat constants with he | ⟨lead, last, he⟩
    · exact he
    · have hs := h.started lead last (by rw [he, List.concat_eq_append])
      omega
  · rintro rfl
    exact ⟨Nat.le_refl 0, fun lead last he => by simp at he⟩

theorem not_fills_nil (slots : Nat) : ¬ Fills (slots + 1) [] := by
  intro h
  have hc := h.covered
  rw [slotCount_nil] at hc
  omega

theorem fills_cons_iff {slots : Nat} {first : StoredConstant} {rest : List StoredConstant} :
    Fills (slots + 1) (first :: rest) ↔ Fills (slots + 1 - first.width) rest := by
  have hw := first.width_pos
  constructor
  · intro h
    have hc := h.covered
    rw [slotCount_cons] at hc
    refine ⟨by omega, fun lead last he => ?_⟩
    have hs := h.started (first :: lead) last (by rw [he, List.cons_append])
    rw [slotCount_cons] at hs
    omega
  · intro h
    have hc := h.covered
    refine ⟨by rw [slotCount_cons]; omega, fun lead last he => ?_⟩
    cases lead with
    | nil =>
      rw [slotCount_nil]
      omega
    | cons other lead =>
      obtain ⟨rfl, hr⟩ := List.cons.inj he
      have hs := h.started lead last hr
      rw [slotCount_cons]
      omega

end SerialManifest.ClassFile

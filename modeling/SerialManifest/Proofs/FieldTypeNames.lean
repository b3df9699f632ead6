import SerialManifest.Contract

namespace SerialManifest

inductive Primitive where
  | byte
  | char
  | double
  | float
  | int
  | long
  | short
  | boolean
deriving DecidableEq, Repr

namespace Primitive

def letter : Primitive → Char
  | byte => 'B'
  | char => 'C'
  | double => 'D'
  | float => 'F'
  | int => 'I'
  | long => 'J'
  | short => 'S'
  | boolean => 'Z'

def keyword : Primitive → String
  | byte => "byte"
  | char => "char"
  | double => "double"
  | float => "float"
  | int => "int"
  | long => "long"
  | short => "short"
  | boolean => "boolean"

end Primitive

/-- The type of a field. Classes go by the names that class files have for them, with slashes between the
parts. -/
inductive FieldType where
  | primitive (kind : Primitive)
  | ofClass (name : String)
  | array (component : FieldType)
deriving DecidableEq, Repr

namespace FieldType

def descriptor : FieldType → String
  | primitive kind => String.ofList [kind.letter]
  | ofClass name => "L" ++ name ++ ";"
  | array component => "[" ++ component.descriptor

/-- The name of the elements of an array, however deep they lie. -/
def elementName : FieldType → String
  | primitive kind => kind.keyword
  | ofClass name => String.ofList (name.toList.map fun c => if c = '/' then '.' else c)
  | array component => component.elementName

def dimensions : FieldType → Nat
  | array component => component.dimensions + 1
  | _ => 0

def sourceName (type : FieldType) : String :=
  type.elementName ++ String.join (List.replicate type.dimensions "[]")

/-- The classes that a type mentions have names without dots, brackets and semicolons that are no keywords. -/
def Ordinary : FieldType → Prop
  | primitive _ => True
  | ofClass name => (∀ c ∈ ['.', '[', ']', ';'], c ∉ name.toList) ∧ ∀ kind : Primitive, name ≠ kind.keyword
  | array component => component.Ordinary

theorem sourceName_primitive (kind : Primitive) : (primitive kind).sourceName = kind.keyword := by
  simp [sourceName, elementName, dimensions]

theorem sourceName_ofClass (name : String) :
    (ofClass name).sourceName.toList = Text.replace '/' '.' name.toList := by
  simp [sourceName, elementName, dimensions, Text.replace]

theorem sourceName_array (component : FieldType) :
    (array component).sourceName = component.sourceName ++ "[]" := by
  simp [sourceName, elementName, dimensions, List.replicate_succ', String.append_assoc]

/-- The name that a descriptor gives is the one that source code uses. -/
theorem typeName_descriptor (type : FieldType) : Descriptor.typeName type.descriptor = type.sourceName := by
  rw [← String.toList_inj, Descriptor.typeName, String.toList_ofList]
  induction type with
  | primitive kind =>
    rw [sourceName_primitive, descriptor, String.toList_ofList]
    cases kind <;> rfl
  | ofClass name =>
    have hshape : (ofClass name).descriptor.toList = 'L' :: (name.toList ++ [';']) := by
      simp [descriptor]
    rw [hshape, Descriptor.sourceName_class, sourceName_ofClass]
  | array component ih =>
    have hshape : (array component).descriptor.toList = '[' :: component.descriptor.toList := by
      simp [descriptor]
    rw [hshape, Descriptor.sourceName_array, ih, sourceName_array, String.toList_append]
    rfl

theorem eq_of_keyword {first second : Primitive} (h : first.keyword = second.keyword) : first = second := by
  cases first <;> cases second <;> first | rfl | exact absurd h (by decide)

theorem mem_replace_slash_iff {c : Char} (hc : c ≠ '/' ∧ c ≠ '.') (text : List Char) :
    c ∈ Text.replace '/' '.' text ↔ c ∈ text := by
  simp only [Text.replace, List.mem_map]
  constructor
  · rintro ⟨d, hd, he⟩
    split at he
    · exact absurd he.symm hc.2
    · exact he ▸ hd
  · exact fun hm => ⟨c, hm, if_neg hc.1⟩

theorem replace_slash_injective {first second : List Char} (hf : '.' ∉ first) (hs : '.' ∉ second)
    (h : Text.replace '/' '.' first = Text.replace '/' '.' second) : first = second := by
  have hback : ∀ text : List Char, '.' ∉ text → Text.replace '.' '/' (Text.replace '/' '.' text) = text := by
    intro text ht
    rw [Text.replace, Text.replace, List.map_map]
    refine (List.map_congr_left fun c hc => ?_).trans text.map_id
    have hdot : c ≠ '.' := fun he => ht (he ▸ hc)
    by_cases hslash : c = '/'
    · simp [hslash]
    · simp [hslash, hdot]
  rw [← hback first hf, h, hback second hs]

theorem bracket_not_mem {type : FieldType} (ordinary : type.Ordinary) (h : type.dimensions = 0) :
    ']' ∉ type.sourceName.toList := by
  cases type with
  | primitive kind =>
    rw [sourceName_primitive]
    cases kind <;> decide
  | ofClass name =>
    rw [sourceName_ofClass, mem_replace_slash_iff (by decide)]
    exact ordinary.1 ']' (by simp)
  | array component => cases h

theorem sourceName_ne_array {type component : FieldType} (ordinary : type.Ordinary) (h : type.dimensions = 0) :
    type.sourceName ≠ (array component).sourceName := by
  intro he
  refine bracket_not_mem ordinary h ?_
  rw [he, sourceName_array]
  simp

theorem keyword_ne_class {kind : Primitive} {name : String} (ordinary : (ofClass name).Ordinary) :
    (primitive kind).sourceName ≠ (ofClass name).sourceName := by
  intro h
  rw [← String.toList_inj, sourceName_primitive, sourceName_ofClass] at h
  have hdot : '.' ∉ kind.keyword.toList := by cases kind <;> decide
  have hslash : '/' ∉ kind.keyword.toList := by cases kind <;> decide
  have hsame : Text.replace '/' '.' kind.keyword.toList = kind.keyword.toList := by cases kind <;> rfl
  have hname := replace_slash_injective hdot (ordinary.1 '.' (by simp)) (hsame.trans h)
  exact ordinary.2 kind (String.toList_inj.1 hname.symm)

theorem eq_of_sourceName {first second : FieldType} (hf : first.Ordinary) (hs : second.Ordinary)
    (h : first.sourceName = second.sourceName) : first = second := by
  induction first generalizing second with
  | primitive kind =>
    cases second with
    | primitive other =>
      rw [sourceName_primitive, sourceName_primitive] at h
      rw [eq_of_keyword h]
    | ofClass name => exact absurd h (keyword_ne_class hs)
    | array component => exact absurd h (sourceName_ne_array hf rfl)
  | ofClass name =>
    cases second with
    | primitive kind => exact absurd h.symm (keyword_ne_class hf)
    | ofClass other =>
      rw [← String.toList_inj, sourceName_ofClass, sourceName_ofClass] at h
      have hname := replace_slash_injective (hf.1 '.' (by simp)) (hs.1 '.' (by simp)) h
      rw [String.toList_inj.1 hname]
    | array component => exact absurd h (sourceName_ne_array hf rfl)
  | array component ih =>
    cases second with
    | primitive kind => exact absurd h.symm (sourceName_ne_array hs rfl)
    | ofClass name => exact absurd h.symm (sourceName_ne_array hs rfl)
    | array other =>
      rw [sourceName_array, sourceName_array, String.append_left_inj] at h
      have hcomponent : other.Ordinary := hs
      rw [ih hf hcomponent h]

theorem wrongFieldType_mem_iff {contract : FieldContract} {field : Field} :
    .wrongFieldType ∈ contract.broken (some field) ↔ field.descriptor ≠ contract.descriptor := by
  simp [FieldContract.broken]

/-- Names tell types. The name that is made of the descriptor of a type is the one that source code uses for the
type. Two types with ordinary classes that are called the same have the same descriptor, so a field is said to
be of the wrong type just if its type and the one that is asked for are not called the same. -/
theorem typeName_faithful :
    (∀ type : FieldType, Descriptor.typeName type.descriptor = type.sourceName) ∧
    ∀ declared wanted : FieldType, declared.Ordinary → wanted.Ordinary →
      (Descriptor.typeName declared.descriptor = Descriptor.typeName wanted.descriptor →
        declared.descriptor = wanted.descriptor) ∧
      ∀ (field : Field) (contract : FieldContract), field.descriptor = declared.descriptor →
        contract.descriptor = wanted.descriptor →
        (.wrongFieldType ∈ contract.broken (some field) ↔ field.typeName ≠ contract.typeName) := by
  refine ⟨typeName_descriptor, fun declared wanted hd hw => ?_⟩
  have hsame : Descriptor.typeName declared.descriptor = Descriptor.typeName wanted.descriptor →
      declared.descriptor = wanted.descriptor := by
    intro h
    rw [typeName_descriptor, typeName_descriptor] at h
    rw [eq_of_sourceName hd hw h]
  refine ⟨hsame, fun field contract hfield hcontract => ?_⟩
  rw [wrongFieldType_mem_iff, Field.typeName, FieldContract.typeName, hfield, hcontract]
  exact not_congr ⟨congrArg Descriptor.typeName, hsame⟩

/-- Objects in arrays of arrays are not mistaken for numbers in such arrays. -/
theorem typeName_of_boxedArrays :
    let declared := array (array (ofClass "java/lang/Long"))
    let wanted := array (array (primitive .long))
    let field : Field := ⟨"serialVersionUID", declared.descriptor, ⟨0x18⟩⟩
    let contract : FieldContract := ⟨"serialVersionUID", wanted.descriptor, true, true⟩
    (declared.Ordinary ∧ wanted.Ordinary) ∧
      (field.typeName = "java.lang.Long[][]" ∧ contract.typeName = "long[][]") ∧
      .wrongFieldType ∈ contract.broken (some field) := by
  intro declared wanted field contract
  have hdeclared : declared.Ordinary := by
    have hplain : (['.', '[', ']', ';'].all fun c => c ∉ "java/lang/Long".toList) = true := by decide
    refine ⟨fun c hc => of_decide_eq_true (List.all_eq_true.1 hplain c hc), fun kind => ?_⟩
    cases kind <;> decide
  have hfield : field.typeName = "java.lang.Long[][]" := by decide
  have hcontract : contract.typeName = "long[][]" := by decide
  obtain ⟨_, hall⟩ := typeName_faithful
  refine ⟨⟨hdeclared, trivial⟩, ⟨hfield, hcontract⟩, ?_⟩
  refine ((hall declared wanted hdeclared trivial).2 field contract rfl rfl).2 ?_
  rw [hfield, hcontract]
  decide

/-- A class that is called as a primitive type is. -/
example : Descriptor.typeName (ofClass "long").descriptor = Descriptor.typeName (primitive .long).descriptor := by
  decide

end FieldType

end SerialManifest

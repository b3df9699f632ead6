import SerialManifest.TypeFacts.Basic

namespace SerialManifest

inductive ViolationKind where
  | missingField
  | wrongFieldType
  | nonStaticField
  | nonFinalField
deriving DecidableEq, Repr

def ViolationKind.name : ViolationKind → String
  | .missingField => "missing_field"
  | .wrongFieldType => "wrong_field_type"
  | .nonStaticField => "non_static_field"
  | .nonFinalField => "non_final_field"

structure Violation where
  subject : String
  kind : ViolationKind
  message : String
deriving DecidableEq, Repr

structure FieldContract where
  fieldName : String
  descriptor : String
  requireStatic : Bool
  requireFinal : Bool
deriving DecidableEq, Repr

namespace FieldContract

/-- The field that holds the version of a type's serialized form. -/
def versionField : String := "serialVersionUID"

/-- A static final `long` field of the given name. -/
def version (fieldName : String) : FieldContract where
  fieldName
  descriptor := "J"
  requireStatic := true
  requireFinal := true

def typeName (contract : FieldContract) : String :=
  Descriptor.typeName contract.descriptor

def describe (contract : FieldContract) (subject : String) : ViolationKind → String
  | .missingField => "No " ++ contract.fieldName ++ " field in class: " ++ subject
  | .wrongFieldType =>
    contract.fieldName ++ " field is not " ++ contract.typeName ++ " in class: " ++ subject
  | .nonStaticField => contract.fieldName ++ " field is not static in class: " ++ subject
  | .nonFinalField => contract.fieldName ++ " field is not final in class: " ++ subject

/-- How a type that declares this field, or none, breaks the contract. -/
def broken (contract : FieldContract) : Option Field → List ViolationKind
  | none => [.missingField]
  | some field =>
    (if field.descriptor = contract.descriptor then [] else [.wrongFieldType]) ++
    (if contract.requireStatic && !field.access.isStatic then [.nonStaticField] else []) ++
    (if contract.requireFinal && !field.access.isFinal then [.nonFinalField] else [])

def check {σ : Type} (contract : FieldContract) (facts : TypeFacts σ) (subject : String) :
    Query σ (List Violation) := do
  let field ← facts.field? subject contract.fieldName
  return (contract.broken field).map fun kind => ⟨subject, kind, contract.describe subject kind⟩

end FieldContract

end SerialManifest

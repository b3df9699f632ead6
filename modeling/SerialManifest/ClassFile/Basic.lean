import SerialManifest.Field

namespace SerialManifest

/-- How a class lies inside another one. Anonymous classes have no simple name. -/
structure Nesting where
  simpleName : Option String
deriving DecidableEq, Repr

/-- A compiled class: its flags, dotted names, fields in declared order, and its nesting if it has one. -/
structure ClassFile where
  access : AccessFlags
  name : String
  superName : Option String
  interfaces : List String
  fields : List Field
  nesting : Option Nesting
deriving DecidableEq, Repr

namespace ClassFile

/-- The name without its package; empty for an anonymous class. -/
def simpleName (file : ClassFile) : String :=
  match file.nesting with
  | some nesting => nesting.simpleName.getD ""
  | none => String.ofList (Text.afterLast '.' file.name.toList)

def field? (file : ClassFile) (name : String) : Option Field :=
  file.fields.find? (·.name == name)

def supertypes (file : ClassFile) : List String :=
  file.superName.toList ++ file.interfaces

end ClassFile

end SerialManifest

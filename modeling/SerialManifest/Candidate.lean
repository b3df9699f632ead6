import SerialManifest.Text.Basic

namespace SerialManifest

inductive Origin where
  | file (path : String)
  | entry (archive name : String)
deriving DecidableEq, Repr

/-- A definition that was found: its dotted type name and its place. -/
structure Candidate where
  name : String
  origin : Origin
deriving DecidableEq, Repr

namespace Candidate

def suffix : List Char := ".class".toList

def isDefinitionName (name : String) : Bool :=
  Text.endsInAnyCase suffix name.toList

/-- The type name for a path below a root: the suffix goes, and slashes of both kinds become dots. A name
with nothing before the suffix stands for no type. -/
def typeName? (relative : String) : Option String :=
  let text := relative.toList
  let stem := text.take (text.length - suffix.length)
  if isDefinitionName relative ∧ stem ≠ [] then
    some (String.ofList (Text.replace '\\' '.' (Text.replace '/' '.' stem)))
  else none

end Candidate

end SerialManifest

import SerialManifest.Archive.Basic
import SerialManifest.ClassFile.Basic
import SerialManifest.ClassFile.Decoder

namespace SerialManifest

inductive TypeKind where
  | ordinaryClass
  | interface
  | enum
deriving DecidableEq, Repr

def TypeKind.name : TypeKind → String
  | .ordinaryClass => "class"
  | .interface => "interface"
  | .enum => "enum"

inductive QueryError where
  | typeNotFound (name : String)
  | unresolvedSupertype (name supertype : String)
  | unreadable (path : String) (fault : FileFault)
  | archive (error : ArchiveError)
  | malformed (name : String) (error : ClassFile.FormatError)
deriving DecidableEq, Repr

def QueryError.message : QueryError → String
  | .typeNotFound name => "Type not found: " ++ name
  | .unresolvedSupertype name supertype =>
    "Cannot resolve supertype " ++ supertype ++ " of " ++ name ++
      "; add its defining root to the classpath or list it under platform_types or leaf_types"
  | .unreadable path fault => "Failed to read class file " ++ path ++ ": " ++ fault.message
  | .archive error => error.message
  | .malformed name error => "Malformed class file for " ++ name ++ ": " ++ error.message

/-- A question, whose answer may be remembered in the state `σ`. -/
abbrev Query (σ : Type) := ExceptT QueryError (StateM σ)

/-- Someone who answers questions about types. `implements` asks whether a type is, extends or implements a
capability. -/
structure TypeFacts (σ : Type) where
  kind : String → Query σ TypeKind
  isAbstract : String → Query σ Bool
  simpleName : String → Query σ String
  implements : (name capability : String) → Query σ Bool
  field? : (name field : String) → Query σ (Option Field)

namespace TypeFacts

variable {σ : Type}

/-- Whether a type has one of the capabilities. They are asked for in order, and the first that the type has
ends the search. -/
def implementsAny (facts : TypeFacts σ) (name : String) : List String → Query σ Bool
  | [] => return false
  | capability :: others => do
    if ← facts.implements name capability then return true
    else implementsAny facts name others

end TypeFacts

end SerialManifest

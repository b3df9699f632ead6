import SerialManifest.TypeFacts.Hierarchy

namespace SerialManifest

structure TypeDescription where
  name : String
  kind : TypeKind
  isAbstract : Bool
  simpleName : String
  supertypes : List String
  fields : List Field
deriving DecidableEq, Repr

def TypeDescription.ofName (name : String) : TypeDescription where
  name
  kind := .ordinaryClass
  isAbstract := false
  simpleName := String.ofList (Text.afterLast '.' name.toList)
  supertypes := []
  fields := []

/-- The described types, one description for each name. -/
structure Catalog where
  types : List TypeDescription
deriving DecidableEq, Repr

namespace Catalog

def empty : Catalog := ⟨[]⟩

def register (catalog : Catalog) (type : TypeDescription) : Catalog :=
  ⟨type :: catalog.types.filter (·.name != type.name)⟩

def ofList (types : List TypeDescription) : Catalog :=
  types.foldl register empty

def type? (catalog : Catalog) (name : String) : Option TypeDescription :=
  catalog.types.find? (·.name == name)

def require (catalog : Catalog) (name : String) : Query Unit TypeDescription :=
  match catalog.type? name with
  | some type => return type
  | none => throw (.typeNotFound name)

/-- The types with a description, under their described supertypes. -/
def hierarchy (catalog : Catalog) : Hierarchy Unit where
  defined := catalog.types.map (·.name)
  supertypes name := return (← catalog.require name).supertypes
  isLeaf _ := true

def facts (catalog : Catalog) : TypeFacts Unit where
  kind name := return (← catalog.require name).kind
  isAbstract name := return (← catalog.require name).isAbstract
  simpleName name := return (← catalog.require name).simpleName
  implements name capability := do
    let _ ← catalog.require name
    (← catalog.hierarchy.search name capability).answer name
  field? name field := return (← catalog.require name).fields.find? (·.name == field)

theorem type?_register (catalog : Catalog) (type : TypeDescription) (name : String) :
    (catalog.register type).type? name
      = if name = type.name then some type else catalog.type? name := by
  by_cases h : name = type.name
  · simp [register, type?, h]
  · have hn : (type.name == name) = false := by simp [Ne.symm h]
    simp only [register, type?, List.find?_cons, hn, h, if_false, List.find?_filter]
    congr 1
    funext other
    by_cases ho : other.name = name <;> simp [ho, h]

end Catalog

end SerialManifest

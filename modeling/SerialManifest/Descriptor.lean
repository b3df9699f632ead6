import SerialManifest.Text.Basic

namespace SerialManifest.Descriptor

def keyword? : Char → Option String
  | 'B' => some "byte"
  | 'C' => some "char"
  | 'D' => some "double"
  | 'F' => some "float"
  | 'I' => some "int"
  | 'J' => some "long"
  | 'S' => some "short"
  | 'Z' => some "boolean"
  | 'V' => some "void"
  | _ => none

/-- The source name of a descriptor: `J` is `long`, `Ljava/lang/String;` is `java.lang.String` and `[I` is
`int[]`. Text that begins like no descriptor stays as it is. -/
def sourceName : List Char → List Char
  | [] => []
  | c :: rest =>
    match keyword? c with
    | some word => word.toList
    | none =>
      if c = '[' then sourceName rest ++ ['[', ']']
      else if c = 'L' ∧ rest.getLast? = some ';' then Text.replace '/' '.' rest.dropLast
      else c :: rest

def typeName (descriptor : String) : String :=
  String.ofList (sourceName descriptor.toList)

theorem sourceName_array (rest : List Char) :
    sourceName ('[' :: rest) = sourceName rest ++ ['[', ']'] := by
  simp [sourceName, keyword?]

theorem sourceName_class (name : List Char) :
    sourceName ('L' :: (name ++ [';'])) = Text.replace '/' '.' name := by
  simp [sourceName, keyword?]

end SerialManifest.Descriptor

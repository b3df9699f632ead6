import SerialManifest.FileTree.Write

namespace SerialManifest.FileTree

inductive Listed where
  | directory (path : String)
  | link (path target : String)
  | file (path : String)
deriving DecidableEq, Repr

def arrow : List Char := " -> ".toList

def cutAtArrow : List Char → Option (List Char × List Char)
  | [] => none
  | c :: rest =>
    if arrow.isPrefixOf (c :: rest) then some ([], (c :: rest).drop arrow.length)
    else (cutAtArrow rest).map fun (path, target) => (c :: path, target)

def Listed.ofLine (line : String) : Listed :=
  match cutAtArrow line.toList with
  | some (path, target) => .link (String.ofList path) (String.ofList target)
  | none => if line.toList.getLast? = some '/' then .directory line else .file line

def placeNamed (path : String) : Location :=
  (((Text.split '/' path.toList).filter (· ≠ [])).map String.ofList).reverse

def plant (path : String) (node : Node) : FileAction Unit := do
  createDirectories ((Path.parent? path).getD "")
  replace path node

/-- Adds a directory or link; for a file, `data` is what it holds. -/
def Listed.plant (data : List UInt8) : Listed → FileAction Unit
  | .directory path => createDirectories path
  | .link path target => FileTree.plant path (.link target)
  | .file path => FileTree.plant path (.file (.bytes data))

end SerialManifest.FileTree

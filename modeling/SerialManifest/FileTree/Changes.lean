import SerialManifest.FileTree.Write

namespace SerialManifest.FileTree

def pathBelow? (tree : FileTree) (place : Location) : Option String :=
  if tree.current.isSuffixOf place ∧ place ≠ tree.current then
    let names := (place.take (place.length - tree.current.length)).reverse
    some (String.ofList (Text.join '/' (names.map String.toList)))
  else none

/-- A file of `after` with its path, unless it stands in `before` too. -/
def changedFile? (before after : FileTree) (entry : Entry) : Option (String × Content) :=
  match entry.node with
  | .file content =>
    if before.node? entry.place = some (.file content) then none
    else (after.pathBelow? entry.place).map (·, content)
  | _ => none

/-- The files of `after` below the current directory that `before` does not hold as they are, by their paths
from there. -/
def changedFiles (before after : FileTree) : List (String × Content) :=
  after.entries.filterMap (changedFile? before after)

end SerialManifest.FileTree

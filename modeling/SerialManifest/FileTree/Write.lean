import SerialManifest.FileTree.Resolve
import SerialManifest.Text.Hex

namespace SerialManifest

abbrev FileAction (α : Type) := ExceptT FileFault (StateM FileTree) α

/-- Where the last step of a path starts from, the name it asks for if it is a name, and whether a slash
follows. -/
structure Slot where
  directory : Standing
  name : Option String
  closed : Bool
deriving DecidableEq, Repr

namespace FileTree

/-- The slot at the end of a path; nothing but the last step may be missing. -/
def slot (tree : FileTree) (path : String) : Except FileFault Slot := do
  let route ← route path
  let closed := route.steps.getLast? == some .closing
  let body := if closed then route.steps.dropLast else route.steps
  match body.getLast? with
  | none => .ok ⟨tree.start route, none, closed⟩
  | some last =>
    let directory ← tree.onward (tree.start route) body.dropLast
    if !tree.isDirectory directory.place then .error .notADirectory
    else match last with
      | .child name =>
        if longestName < name.utf8ByteSize then .error .nameTooLong
        else .ok ⟨directory, some name, closed⟩
      | _ => .ok ⟨directory, none, closed⟩

def createChild (here : Standing) (name : String) : FileAction Standing := do
  let tree ← get
  if (tree.node? (name :: here.place)).isSome then throw .alreadyExists
  else
    match tree.disk.creating here.place with
    | some fault => throw fault
    | none =>
      set (tree.put (name :: here.place) .directory)
      return here.child name

def createDirectory (path : String) : FileAction Standing := do
  let tree ← get
  match tree.slot path with
  | .error fault => throw fault
  | .ok ⟨_, none, _⟩ => throw .alreadyExists
  | .ok ⟨here, some name, _⟩ => createChild here name

/-- Creates the directory at the end of a path, the path without its last segment having led to `here`. -/
def createLast (here : Standing) (path : String) : FileAction Standing :=
  match Step.ofSegment (Path.last path) with
  | .child name => if longestName < name.utf8ByteSize then throw .nameTooLong else createChild here name
  | _ => throw .alreadyExists

def excuse (path : String) (fault : FileFault) : FileAction Standing := do
  let tree ← get
  match tree.reach path with
  | .ok here => if tree.isDirectory here.place then return here else throw fault
  | .error _ => throw fault

/-- Creates a directory, given with its ancestors from the innermost outward. Ancestors are created only
where a directory to start from is missing. -/
def createAll : List String → FileAction Standing
  | [] => return .fresh (← get).current
  | path :: outer =>
    tryCatch (createDirectory path) fun fault => do
      if fault = .notFound then
        let here ← createAll outer
        tryCatch (createLast here path) (excuse path)
      else excuse path fault

/-- Creates a directory and whatever is missing above it. -/
def createDirectories (path : String) : FileAction Unit := do
  let _ ← createAll (Path.ancestors path)

/-- The place at which a path lets something be put that takes the place of any file or link. What is put there is
moved there, and moving takes a NUL in a path for an invalid argument. -/
def placeToReplace (tree : FileTree) (path : String) : Except FileFault Location :=
  match tree.slot path with
  | .error .nulInName => .error .invalidArgument
  | .error fault => .error fault
  | .ok ⟨_, none, _⟩ => .error .busy
  | .ok ⟨here, some name, closed⟩ =>
    if closed then .error .notADirectory
    else if tree.isDirectory (name :: here.place) then .error .isADirectory
    else .ok (name :: here.place)

def replace (path : String) (node : Node) : FileAction Unit := do
  let tree ← get
  match tree.placeToReplace path with
  | .error fault => throw fault
  | .ok place => set (tree.put place node)

/-- Writes a file in place, through links, and creates it where it is missing. A file that can be opened takes
all of the data. -/
def write (path : String) (data : List UInt8) : FileAction Unit := do
  let tree ← get
  match tree.resolveForWriting path with
  | .error fault => throw fault
  | .ok place => set (tree.fill place (.bytes data))

def draws : Nat := 65536

/-- The names for temporary files, which the system draws at random. They are drawn one after the other here,
which makes no difference: all are of one length, and no temporary file stays under its name. -/
def temporaryName (draw : Nat) : String :=
  ".tmp" ++ String.ofList (Text.hex 6 draw)

def placeToCreate (tree : FileTree) (path : String) : Except FileFault Location :=
  match tree.slot path with
  | .error fault => .error fault
  | .ok ⟨_, none, _⟩ => .error .alreadyExists
  | .ok ⟨here, some name, _⟩ => .ok (name :: here.place)

/-- Where a temporary file can be created in a directory, on its way to this path. A name is drawn again if it is
taken, or is the one that the file is to have in the end. -/
def temporaryPlace (tree : FileTree) (directory path : String) : (left draw : Nat) → Except FileFault Location
  | 0, _ => .error (.other "too many temporary files exist")
  | left + 1, draw => do
    let place ← tree.placeToCreate (Path.join directory (temporaryName draw))
    if (tree.node? place).isSome || (tree.placeToReplace path).toOption == some place then
      temporaryPlace tree directory path left (draw + 1)
    else .ok place

/-- Creates an empty temporary file in a directory, the path of which is made absolute. -/
def createTemporary (directory path : String) : FileAction Location := do
  let tree ← get
  match tree.temporaryPlace (Path.join (fullPath tree.current) directory) path draws 0 with
  | .error fault => throw fault
  | .ok place =>
    match tree.disk.creating place.tail with
    | some fault => throw fault
    | none =>
      set (tree.put place (.file (.bytes [])))
      return place

def fillTemporary (place : Location) (data : List UInt8) : FileAction Unit := do
  let tree ← get
  match tree.disk.filling place.tail data with
  | some fault => throw fault
  | none => set (tree.put place (.file (.bytes data)))

def persist (temporary : Location) (path : String) : FileAction Unit := do
  let tree ← get
  match tree.node? temporary, tree.placeToReplace path with
  | none, _ => throw .notFound
  | some _, .error fault => throw fault
  | some node, .ok place => set ((tree.unlink temporary).put place node)

/-- Writes a file as a whole or not at all: into a temporary file in a directory, which is then moved to where the
path leads. If that fails the temporary file is removed. -/
def writeWhole (directory path : String) (data : List UInt8) : FileAction Unit := do
  let temporary ← createTemporary directory path
  tryCatch (do fillTemporary temporary data; persist temporary path) fun fault => do
    set ((← get).unlink temporary)
    throw fault

/-- Removes what a path names, a directory with everything in it and a link without its target. -/
def remove (path : String) : FileAction Unit := do
  let tree ← get
  match tree.slot path with
  | .error fault => throw fault
  | .ok ⟨_, none, _⟩ => throw .busy
  | .ok ⟨here, some name, _⟩ =>
    if (tree.node? (name :: here.place)).isSome then set (tree.prune (name :: here.place))
    else throw .notFound

end FileTree

end SerialManifest

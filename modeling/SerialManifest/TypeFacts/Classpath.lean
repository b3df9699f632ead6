import SerialManifest.ClassFile.Parser
import SerialManifest.TypeFacts.Hierarchy
import SerialManifest.TypeFacts.TypeIndex
import SerialManifest.Walk

namespace SerialManifest

/-- The indexed types and what is known about types that lie elsewhere: a table of supertypes, and types that
are declared to have none that matter. -/
structure Classpath where
  index : TypeIndex
  platformTypes : List (String × List String)
  leafTypes : List String

/-- What has been read and is not read again. Archives go by what the spellings of their path share. -/
structure ClassCache where
  classes : List (String × ClassFile)
  archives : List (List (List Char) × Archive)
deriving DecidableEq, Repr

def ClassCache.empty : ClassCache := ⟨[], []⟩

namespace Classpath

def empty : Classpath := ⟨.empty, [], []⟩

def rootTypes : List String :=
  ["java.lang.Object", "java.io.Serializable"]

def enumBase : String := "java.lang.Enum"

/-- Indexes what lies below a root. Where the walk fails, what it found before stays indexed. -/
def addRoot (classpath : Classpath) (tree : FileTree) (root : String) :
    Classpath × Option WalkError :=
  let walk := tree.walk root
  ({ classpath with index := classpath.index.insertAll walk.found }, walk.failure)

def addRoots (classpath : Classpath) (tree : FileTree) : List String → Except WalkError Classpath
  | [] => .ok classpath
  | root :: roots =>
    match classpath.addRoot tree root with
    | (_, some error) => .error error
    | (extended, none) => addRoots extended tree roots

def ofRoots (tree : FileTree) (roots : List String) : Except WalkError Classpath :=
  empty.addRoots tree roots

def withPlatformTypes (classpath : Classpath) (table : List (String × List String)) : Classpath :=
  { classpath with platformTypes := table }

def withLeafTypes (classpath : Classpath) (types : List String) : Classpath :=
  { classpath with leafTypes := classpath.leafTypes ++ types }

/-- The archive at a path as it was when it was first opened. -/
def openArchive (tree : FileTree) (path : String) : Query ClassCache Archive := do
  match (← get).archives.lookup (Path.key path) with
  | some archive => return archive
  | none =>
    match tree.openArchive path with
    | .error error => throw (.archive error)
    | .ok archive =>
      modify fun cache => { cache with archives := (Path.key path, archive) :: cache.archives }
      return archive

def readDefinition (tree : FileTree) : Origin → Query ClassCache (List UInt8)
  | .file path =>
    match tree.readBytes path with
    | .error fault => throw (.unreadable path fault)
    | .ok data => return data
  | .entry path name => do
    let archive ← openArchive tree path
    match archive.read path name with
    | .error error => throw (.archive error)
    | .ok data => return data

/-- The class file of an indexed type. It is kept once it has been read; a failure is not. -/
def classFile? (classpath : Classpath) (tree : FileTree) (name : String) :
    Query ClassCache (Option ClassFile) := do
  match (← get).classes.lookup name with
  | some file => return some file
  | none =>
    match classpath.index.origin? name with
    | none => return none
    | some origin =>
      let bytes ← readDefinition tree origin
      match ClassFile.parse bytes with
      | .error error => throw (.malformed name error)
      | .ok file =>
        modify fun cache => { cache with classes := (name, file) :: cache.classes }
        return some file

def require (classpath : Classpath) (tree : FileTree) (name : String) : Query ClassCache ClassFile := do
  match ← classpath.classFile? tree name with
  | some file => return file
  | none => throw (.typeNotFound name)

/-- What lies above each type. The class file of an indexed type counts before the table. -/
def hierarchy (classpath : Classpath) (tree : FileTree) : Hierarchy ClassCache where
  defined := classpath.index.names ++ classpath.platformTypes.map Prod.fst
  supertypes name := do
    match ← classpath.classFile? tree name with
    | some file => return file.supertypes
    | none => return (classpath.platformTypes.lookup name).getD []
  isLeaf name := rootTypes.contains name || classpath.leafTypes.contains name

/-- The kind that a class file declares. Constants of an enum may be classes that are marked as enums but
do not extend the base of all enums; they count as classes. -/
def kindOf (file : ClassFile) : TypeKind :=
  if file.access.isInterface then .interface
  else if file.access.isEnum && file.superName == some enumBase then .enum
  else .ordinaryClass

def facts (classpath : Classpath) (tree : FileTree) : TypeFacts ClassCache where
  kind name := return kindOf (← classpath.require tree name)
  isAbstract name := return (← classpath.require tree name).access.isAbstract
  simpleName name := return (← classpath.require tree name).simpleName
  implements name capability := do
    let _ ← classpath.require tree name
    (← (classpath.hierarchy tree).search name capability).answer name
  field? name field := return (← classpath.require tree name).field? field

end Classpath

end SerialManifest

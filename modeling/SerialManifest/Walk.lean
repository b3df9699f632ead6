import SerialManifest.Candidate
import SerialManifest.FileTree.Resolve

namespace SerialManifest

/-- Why a walk ends early. Every directory of a file tree can be listed to its end: a listing that cannot be
opened, or that breaks off at one of its names, is not among the reasons. -/
inductive WalkError where
  | notFound (path : String)
  | unreadable (path : String) (fault : FileFault)
  | cycle (path : String)
  | archive (error : ArchiveError)
deriving DecidableEq, Repr

def WalkError.message : WalkError → String
  | .notFound path => "File doesn't exist: " ++ path
  | .unreadable path fault => "Failed to read metadata of " ++ path ++ ": " ++ fault.message
  | .cycle path => "Directory cycle at " ++ path
  | .archive error => error.message

/-- What a walk came upon before it ended, in order, and the failure that ended it, if one did. -/
structure Walk where
  found : List Candidate
  failure : Option WalkError
deriving DecidableEq, Repr

namespace Walk

def failed (error : WalkError) : Walk :=
  ⟨[], some error⟩

def of (found : List Candidate) : Walk :=
  ⟨found, none⟩

def each (walk : String → Walk) : List String → Walk
  | [] => of []
  | name :: names =>
    let first := walk name
    match first.failure with
    | some _ => first
    | none =>
      let others := each walk names
      ⟨first.found ++ others.found, others.failure⟩

/-- Hands what was found to `visit`, in order; a failure of the walk comes after all of it. -/
def foldM {ε α : Type} {m : Type → Type} [Monad m] (walk : Walk) (raise : WalkError → ε)
    (visit : α → Candidate → ExceptT ε m α) (start : α) : ExceptT ε m α := do
  let last ← walk.found.foldlM visit start
  match walk.failure with
  | none => return last
  | some error => throw (raise error)

@[simp] theorem each_nil (walk : String → Walk) : each walk [] = of [] := rfl

theorem each_cons_of_failure {walk : String → Walk} {name : String} {names : List String}
    {error : WalkError} (h : (walk name).failure = some error) :
    each walk (name :: names) = walk name := by
  simp [each, h]

theorem each_cons_of_success {walk : String → Walk} {name : String} {names : List String}
    (h : (walk name).failure = none) :
    each walk (name :: names) =
      ⟨(walk name).found ++ (each walk names).found, (each walk names).failure⟩ := by
  simp [each, h]

end Walk

namespace FileTree

def unentered (tree : FileTree) (entered : List Location) : List Location :=
  tree.directories.filter (!entered.contains ·)

theorem unentered_cons_lt {tree : FileTree} {entered : List Location} {place : Location}
    (hd : tree.isDirectory place = true) (hn : place ∉ entered) :
    (tree.unentered (place :: entered)).length < (tree.unentered entered).length := by
  have he : tree.unentered (place :: entered) = (tree.unentered entered).filter (· ≠ place) := by
    simp only [unentered, List.filter_filter]
    congr 1
    funext other
    simp
  rw [he]
  refine List.length_filter_lt_length_iff_exists.2 ⟨place, ?_, by simp⟩
  simp [unentered, mem_directories hd, hn]

/-- The definitions in the archive at a path. Where the archive lies does not matter for their names. -/
def walkArchive (tree : FileTree) (path : String) : Walk :=
  match tree.openArchive path with
  | .error error => .failed (.archive error)
  | .ok archive =>
    .of <| (archive.names.filter (!Archive.isDirectoryName ·)).filterMap fun name =>
      (Candidate.typeName? name).map (⟨·, .entry path name⟩)

/-- A file below the root of a walk. It is named by its path without that of the root. -/
def walkFile (root path : String) : Walk :=
  if Candidate.isDefinitionName path then
    match Candidate.typeName? (Path.relative root path) with
    | some name => .of [⟨name, .file path⟩]
    | none => .of []
  else .of []

/-- The walk from a path that has led to `reached`, below a root, `entered` being the directories in which the
walk already is. -/
def walkFrom (tree : FileTree) (root path : String)
    (reached : Except FileFault Standing) (entered : List Entry) : Walk :=
  match reached with
  | .error .notFound => .failed (.notFound path)
  | .error fault => .failed (.unreadable path fault)
  | .ok here =>
    if _ : tree.isDirectory here.place then
      if !here.spelt then .failed (.unreadable path .nameTooLong)
      else if _ : Entry.anyAt entered here.place then .failed (.cycle path)
      else
        let walkChild (name : String) :=
          let below := Path.join path name
          walkFrom tree root below (tree.reachChild here below name)
            (.of here.place .directory :: entered)
        .each walkChild (tree.children here.place)
    else if Archive.isArchiveName path then tree.walkArchive path
    else walkFile root path
termination_by (tree.unentered (entered.map Entry.place)).length
decreasing_by exact unentered_cons_lt ‹_› (mt Entry.anyAt_iff.2 ‹_›)

def walk (tree : FileTree) (root : String) : Walk :=
  tree.walkFrom root root (tree.reach root) []

end FileTree

end SerialManifest

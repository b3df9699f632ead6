import SerialManifest.FileTree.Fault

namespace SerialManifest

inductive EntryFault where
  | badChecksum
  | unsupportedMethod
  | encrypted
deriving DecidableEq, Repr

structure ArchiveEntry where
  name : String
  data : List UInt8
  fault : Option EntryFault
deriving DecidableEq, Repr

/-- The entries of an archive in stored order. A name may occur more than once: it is listed where it first
occurs and read where it last occurs. -/
structure Archive where
  entries : List ArchiveEntry
deriving DecidableEq, Repr

inductive UnreadableCause where
  | file (fault : FileFault)
  | badChecksum
deriving DecidableEq, Repr

inductive CorruptCause where
  | notAFile
  | noDirectory
  | unsupportedMethod
  | encrypted
deriving DecidableEq, Repr

/-- A failure to list or read the archive at `path`. -/
inductive ArchiveError where
  | unreadable (path : String) (cause : UnreadableCause)
  | corrupt (path : String) (cause : CorruptCause)
  | missingEntry (path entry : String)
deriving DecidableEq, Repr

def UnreadableCause.message : UnreadableCause → String
  | .file fault => fault.message
  | .badChecksum => "Invalid checksum"

def CorruptCause.message : CorruptCause → String
  | .notAFile => "i/o error"
  | .noDirectory => "invalid Zip archive: Could not find EOCD"
  | .unsupportedMethod => "unsupported Zip archive: Compression method not supported"
  | .encrypted => "unsupported Zip archive: Password required to decrypt file"

def ArchiveError.message : ArchiveError → String
  | .unreadable path cause => "Failed to open archive " ++ path ++ ": " ++ cause.message
  | .corrupt path cause => "Corrupt archive " ++ path ++ ": " ++ cause.message
  | .missingEntry path entry => "Entry '" ++ entry ++ "' not found in archive " ++ path

namespace Archive

def suffixes : List (List Char) :=
  [".jar".toList, ".zip".toList]

def isArchiveName (path : String) : Bool :=
  suffixes.any (Text.endsInAnyCase · path.toList)

/-- The names of the entries, each once, by first occurrence. -/
def names (archive : Archive) : List String :=
  (archive.entries.map (·.name)).eraseDups

def entryNamed? (archive : Archive) (name : String) : Option ArchiveEntry :=
  archive.entries.reverse.find? (·.name == name)

def read (archive : Archive) (path name : String) : Except ArchiveError (List UInt8) :=
  match archive.entryNamed? name with
  | none => .error (.missingEntry path name)
  | some entry =>
    match entry.fault with
    | none => .ok entry.data
    | some .badChecksum => .error (.unreadable path .badChecksum)
    | some .unsupportedMethod => .error (.corrupt path .unsupportedMethod)
    | some .encrypted => .error (.corrupt path .encrypted)

def isDirectoryName (name : String) : Bool :=
  name.toList.getLast? == some '/'

end Archive

end SerialManifest

import SerialManifest.FileTree.Write
import SerialManifest.Report.Summary
import SerialManifest.Text.Utf8

namespace SerialManifest

inductive OutputError where
  | createDirectory (path : String) (fault : FileFault)
  | write (path : String) (fault : FileFault)
deriving DecidableEq, Repr

def OutputError.message : OutputError → String
  | .createDirectory path fault => "Failed to create directory " ++ path ++ ": " ++ fault.message
  | .write path fault => "Failed to write " ++ path ++ ": " ++ fault.message

abbrev Output (α : Type) := ExceptT OutputError (StateM FileTree) α

def FileAction.orFail {α : Type} (action : FileAction α) (fail : FileFault → OutputError) : Output α :=
  ExceptT.adapt fail action

namespace Manifest

/-- The text of a manifest: the header, a blank line, and a line for each name. -/
def render (header : String) (names : List String) : String :=
  names.foldl (fun text name => text ++ name ++ "\n") (header ++ "\n\n")

def directoryOf (path : String) : String :=
  match Path.parent? path with
  | none => "."
  | some parent => if parent = "" then "." else parent

/-- Writes a manifest. Directories on the way to it that are missing are created first. Where the temporary file
fails, the system's text also tells the path of that file, which is random and left out here. -/
def write (path header : String) (names : List String) : Output Unit := do
  let directory := directoryOf path
  (FileTree.createDirectories directory).orFail (.createDirectory directory)
  (FileTree.writeWhole directory path (Text.Utf8.encode (render header names))).orFail (.write path)

end Manifest

def ScanResult.writeSummary (result : ScanResult) (path : String) : Output Unit :=
  (FileTree.write path (Text.Utf8.encode result.summary.render)).orFail (.write path)

end SerialManifest

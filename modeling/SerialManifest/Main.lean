import SerialManifest.FileTree.Changes
import SerialManifest.FileTree.Listing
import SerialManifest.Program

namespace SerialManifest

/-- The tree that a listing on standard input describes, as
`find . -type d -printf '%p/\n' -o -type l -printf '%p -> %l\n' -o -print` writes it. -/
partial def readTree (input : IO.FS.Stream) (tree : FileTree) : IO FileTree := do
  let line ← input.getLine
  if line.isEmpty then return tree
  let listed := FileTree.Listed.ofLine (String.ofList (line.toList.filter (· ≠ '\n')))
  let data ← match listed with
    | .file path => pure (← IO.FS.readBinFile path).toList
    | _ => pure []
  readTree input ((listed.plant data).run.run tree).2

def writeChange (path : String) (content : Content) : IO Unit := do
  IO.FS.createDirAll (Manifest.directoryOf path)
  IO.FS.writeBinFile path ⟨content.data.toArray⟩

end SerialManifest

open SerialManifest in
def main (arguments : List String) : IO UInt32 := do
  let environment : Environment :=
    { home := ← IO.getEnv "IGNITE_HOME", classpath := ← IO.getEnv "CLASSPATH" }
  let here := FileTree.placeNamed (← IO.currentDir).toString
  let files ← readTree (← IO.getStdin) (FileTree.withCurrent here)
  let outcome := Program.run environment arguments files
  IO.print outcome.printed
  IO.eprint outcome.complaint
  for (path, content) in FileTree.changedFiles files outcome.files do
    writeChange path content
  return outcome.exitCode.toUInt32

import SerialManifest.CommandLine.Reader
import SerialManifest.Report.Console
import SerialManifest.Report.Output
import SerialManifest.Scan.Scanner
import SerialManifest.TypeFacts.Classpath

namespace SerialManifest

inductive RunError where
  | settings (error : SettingsError)
  | scan (error : ScanError)
  | output (error : OutputError)
deriving DecidableEq, Repr

def RunError.message : RunError → String
  | .settings error => error.message
  | .scan error => error.message
  | .output error => error.message

/-- The exit code of a failed run: 1 if types break the contract, else 2. -/
def RunError.exitCode : RunError → Nat
  | .scan (.violations _ _) => 1
  | _ => 2

structure RunState where
  files : FileTree
  printed : String

abbrev Generation (α : Type) := ExceptT RunError (StateM RunState) α

namespace Generation

def require {ε α : Type} (raise : ε → RunError) : Except ε α → Generation α
  | .ok value => return value
  | .error error => throw (raise error)

def put {α : Type} (output : Output α) : Generation α := do
  let state ← get
  let (outcome, files) := output.run.run state.files
  set { state with files }
  require .output outcome

def print (text : String) : Generation Unit :=
  modify fun state => { state with printed := state.printed ++ text }

end Generation

namespace Settings

def types (settings : Settings) (tree : FileTree) : Except WalkError Classpath := do
  let classpath ← Classpath.ofRoots tree settings.classpath
  return (classpath.withPlatformTypes settings.platformTypes).withLeafTypes settings.leafTypes

def scanner (settings : Settings) : Scanner :=
  Scanner.fresh settings.rules settings.contract settings.manifestName

def scan (settings : Settings) (tree : FileTree) : Except ScanError ScanResult :=
  match settings.types tree with
  | .error error => .error (.walk error)
  | .ok types =>
    ((settings.scanner.scan tree (types.facts tree) settings.classpath).run .empty).1.1

def summarize (settings : Settings) (result : ScanResult) : Generation Unit :=
  match settings.summaryFile with
  | none => return ()
  | some path => Generation.put (result.writeSummary path)

def announce (settings : Settings) (result : ScanResult) : Generation Unit :=
  if settings.quiet then return () else Generation.print result.box

/-- A run: the roots are indexed and scanned, the summary is written, the box is printed, and the manifest is
written if nothing breaks the contract. What was printed and written before a failure stays. -/
def generate (settings : Settings) : Generation ScanResult := do
  Generation.require .settings settings.validate
  let state ← get
  let result ← Generation.require .scan (settings.scan state.files)
  settings.summarize result
  settings.announce result
  let names ← Generation.require .scan result.intoManifest
  Generation.put (Manifest.write settings.manifestFile settings.header names)
  return result

end Settings

namespace CommandLine

def generate (line : CommandLine) (environment : Environment) : Generation ScanResult := do
  let state ← get
  let settings ← Generation.require .settings (line.settings environment state.files)
  settings.generate

end CommandLine

def Generation.onFiles {α : Type} (generation : Generation α) (files : FileTree) :
    Except RunError α × RunState :=
  generation.run.run ⟨files, ""⟩

end SerialManifest

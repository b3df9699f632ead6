import SerialManifest.Settings.Reader

namespace SerialManifest

structure Environment where
  home : Option String
  classpath : Option String
deriving DecidableEq, Repr

structure CommandLine where
  basePath : Option String
  classpath : List String
  namespaces : List String
  config : Option String
  summary : Option String
  quiet : Bool
deriving DecidableEq, Repr

namespace CommandLine

def empty : CommandLine := ⟨none, [], [], none, none, false⟩

/-- The paths in lists whose members are separated by colons; empty ones do not count. -/
def pathsIn (lists : List String) : List String :=
  lists.flatMap fun list => ((Text.split ':' list.toList).filter (· ≠ [])).map String.ofList

/-- The roots that are asked for. The environment speaks where the command line is silent. -/
def roots (line : CommandLine) (environment : Environment) : List String :=
  pathsIn (if line.classpath = [] then environment.classpath.toList else line.classpath)

def baseSettings (line : CommandLine) (environment : Environment) (tree : FileTree) :
    Except SettingsError Settings :=
  match line.config with
  | some path => Settings.ofFile environment.home tree path
  | none => .ok (Settings.defaults environment.home)

def override (line : CommandLine) (environment : Environment) (settings : Settings) : Settings :=
  let roots := line.roots environment
  { settings with
    basePath := line.basePath.getD settings.basePath
    classpath := if roots = [] then settings.classpath else roots
    namespaces := if line.namespaces = [] then settings.namespaces else line.namespaces
    summaryFile := line.summary <|> settings.summaryFile
    quiet := settings.quiet || line.quiet }

def settings (line : CommandLine) (environment : Environment) (tree : FileTree) :
    Except SettingsError Settings :=
  (line.baseSettings environment tree).map (line.override environment)

end CommandLine

end SerialManifest

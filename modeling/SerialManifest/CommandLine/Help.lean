import SerialManifest.CommandLine.Reader
import SerialManifest.Text.Terminal

namespace SerialManifest.CommandLine

open Text.Terminal (bold plain)

def programName : String := "classnames_gen"

def versionText : String := programName ++ " 0.1.0\n"

def usage : String := "Usage: " ++ programName ++ " [OPTIONS] [BASE_PATH]\n"

structure OptionHelp where
  short : Option String
  long : String
  value : Option String
  meaning : String
deriving DecidableEq, Repr

namespace OptionHelp

def meaningColumn : Nat := 28

def spelling (option : OptionHelp) (mark : String → String) : String :=
  "  " ++ (match option.short with
    | some name => mark name ++ ", "
    | none => "    ") ++
  mark option.long ++ (match option.value with
    | some name => " <" ++ name ++ ">"
    | none => "")

def spaces (count : Nat) : String :=
  String.ofList (List.replicate count ' ')

/-- A text whose further lines begin in the column of the first. -/
def hanging (text : String) : String :=
  String.ofList <| text.toList.flatMap fun c =>
    if c = '\n' then '\n' :: List.replicate meaningColumn ' ' else [c]

def render (option : OptionHelp) : String :=
  option.spelling bold ++ spaces (meaningColumn - (option.spelling id).length) ++
    hanging option.meaning ++ "\n"

end OptionHelp

def optionHelps (environment : Environment) : List OptionHelp := [
  ⟨some "-c", "--classpath", some "PATHS",
    "Classpath root (directory, .jar or .zip); repeatable or a path list [env: CLASSPATH=" ++
      environment.classpath.getD "" ++ "]"⟩,
  ⟨some "-n", "--namespace", some "PREFIX",
    "Governed namespace prefix; repeatable, the first is the product namespace"⟩,
  ⟨none, "--config", some "FILE", "TOML configuration file"⟩,
  ⟨none, "--summary", some "FILE", "Write a JSON run summary to this file"⟩,
  ⟨some "-q", "--quiet", none, "Only log warnings and errors"⟩,
  ⟨some "-h", "--help", none, "Print help"⟩,
  ⟨some "-V", "--version", none, "Print version"⟩]

def markedHelp (environment : Environment) : String :=
  "Serializable class name manifest generator\n\n" ++
    bold "Usage:" ++ " " ++ bold programName ++ " [OPTIONS] [BASE_PATH]\n\n" ++
    bold "Arguments:" ++ "\n  [BASE_PATH]  Directory the manifest is written under " ++
    "(default: $IGNITE_HOME/modules/core/src/main/resources)\n\n" ++
    bold "Options:" ++ "\n" ++ String.join ((optionHelps environment).map (·.render))

def helpText (environment : Environment) : String :=
  plain (markedHelp environment)

def UsageError.message : UsageError → String
  | .invalidValue => "error: a value is missing or empty\n\n" ++ usage
  | .unknownArgument => "error: unexpected argument\n\n" ++ usage
  | .argumentConflict => "error: an argument cannot be used multiple times\n\n" ++ usage
  | .tooManyValues => "error: unexpected value for an argument that takes none\n\n" ++ usage

end SerialManifest.CommandLine

import SerialManifest.CommandLine.Help
import SerialManifest.Generation

namespace SerialManifest

/-- What the program prints, the code with which it ends, and the files that it leaves. -/
structure Outcome where
  exitCode : Nat
  printed : String
  complaint : String
  files : FileTree

namespace Program

def outcome (ended : Except RunError ScanResult × RunState) : Outcome :=
  match ended with
  | (.ok _, state) => ⟨0, state.printed, "", state.files⟩
  | (.error error, state) =>
    ⟨error.exitCode, state.printed, "Error: " ++ error.message ++ "\n", state.files⟩

def run (environment : Environment) (arguments : List String) (files : FileTree) : Outcome :=
  match CommandLine.ofArguments arguments with
  | .error .help => ⟨0, CommandLine.helpText environment, "", files⟩
  | .error .version => ⟨0, CommandLine.versionText, "", files⟩
  | .error (.misuse error) => ⟨2, "", error.message, files⟩
  | .ok line => outcome ((line.generate environment).onFiles files)

end Program

end SerialManifest

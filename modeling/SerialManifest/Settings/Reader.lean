import SerialManifest.FileTree.Resolve
import SerialManifest.Settings.Defaults
import SerialManifest.Settings.Document
import SerialManifest.Text.Utf8

namespace SerialManifest.Settings

def assign (settings : Settings) : String × Value → Option Settings
  | ("base_path", .text path) => some { settings with basePath := path }
  | ("manifest_path", .text path) => some { settings with manifestPath := path }
  | ("header", .text header) => some { settings with header := header }
  | ("namespaces", .texts names) => some { settings with namespaces := names }
  | ("classpath", .texts paths) => some { settings with classpath := paths }
  | ("serializable", .text name) => some { settings with serializable := name }
  | ("excluded", .texts names) => some { settings with excluded := names }
  | ("version_field", .text name) => some { settings with versionField := name }
  | ("platform_types", .table entries) => some { settings with platformTypes := ordered entries }
  | ("leaf_types", .texts names) => some { settings with leafTypes := names }
  | ("quiet", .flag quiet) => some { settings with quiet := quiet }
  | ("summary_file", .text path) => some { settings with summaryFile := some path }
  | _ => none

def ofDocument? (home : Option String) (document : String) : Option Settings := do
  let bindings ← Bindings.ofDocument? document
  bindings.foldlM assign (defaults home)

/-- The settings that a document gives; `path` says where it was found. -/
def ofDocument (home : Option String) (path document : String) : Except SettingsError Settings :=
  match ofDocument? home document with
  | some settings => .ok settings
  | none => .error (.malformed path)

def ofFile (home : Option String) (tree : FileTree) (path : String) : Except SettingsError Settings :=
  match tree.readBytes path with
  | .error fault => .error (.unreadable path fault)
  | .ok bytes =>
    match Text.Utf8.decode? bytes with
    | none => .error (.unreadable path .notUtf8)
    | some document => ofDocument home path document

end SerialManifest.Settings

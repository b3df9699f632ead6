import SerialManifest.Contract
import SerialManifest.Eligibility
import SerialManifest.FileTree.Path

namespace SerialManifest

/-- The settings of a run. The table of platform types is in the order of their names. -/
structure Settings where
  basePath : String
  manifestPath : String
  header : String
  namespaces : List String
  classpath : List String
  serializable : String
  excluded : List String
  versionField : String
  platformTypes : List (String × List String)
  leafTypes : List String
  quiet : Bool
  summaryFile : Option String
deriving DecidableEq, Repr

inductive SettingsError where
  | unreadable (path : String) (fault : FileFault)
  | malformed (path : String)
  | noNamespace
  | emptyNamespace
  | noClasspath
  | noVersionField
deriving DecidableEq, Repr

def SettingsError.message : SettingsError → String
  | .unreadable path fault => "Failed to read config " ++ path ++ ": " ++ fault.message
  | .malformed path => "Failed to parse config " ++ path
  | .noNamespace => "Invalid configuration: at least one namespace is required"
  | .emptyNamespace => "Invalid configuration: namespace prefixes must not be empty"
  | .noClasspath => "Invalid configuration: classpath is empty; pass --classpath or set CLASSPATH"
  | .noVersionField => "Invalid configuration: version_field must not be empty"

namespace Settings

/-- Where the manifest lies below the base path unless settings say otherwise. -/
def defaultManifestPath : String := "META-INF/classnames.properties"

def manifestFile (settings : Settings) : String :=
  Path.join settings.basePath settings.manifestPath

def manifestName (settings : Settings) : String :=
  (Path.fileName? settings.manifestPath).getD defaultManifestPath

def rules (settings : Settings) : EligibilityRules where
  namespaces := settings.namespaces
  serializable := settings.serializable
  excluded := settings.excluded

def contract (settings : Settings) : FieldContract :=
  FieldContract.version settings.versionField

/-- Whether a run can start from these settings. The first fault counts. -/
def validate (settings : Settings) : Except SettingsError Unit :=
  if settings.namespaces = [] then .error .noNamespace
  else if "" ∈ settings.namespaces then .error .emptyNamespace
  else if settings.classpath = [] then .error .noClasspath
  else if settings.versionField = "" then .error .noVersionField
  else .ok ()

def insertEntry (entry : String × List String) :
    List (String × List String) → List (String × List String)
  | [] => [entry]
  | first :: rest =>
    if entry.1 < first.1 then entry :: first :: rest else first :: insertEntry entry rest

def ordered (entries : List (String × List String)) : List (String × List String) :=
  entries.foldr insertEntry []

theorem insertEntry_perm (entry : String × List String) (table : List (String × List String)) :
    (insertEntry entry table).Perm (entry :: table) := by
  induction table with
  | nil => exact .refl _
  | cons first rest ih =>
    rw [insertEntry]
    split
    · exact .refl _
    · exact (ih.cons first).trans (.swap entry first rest)

theorem ordered_perm (entries : List (String × List String)) : (ordered entries).Perm entries := by
  induction entries with
  | nil => exact .refl _
  | cons entry rest ih => exact (insertEntry_perm entry (ordered rest)).trans (ih.cons entry)

end Settings

end SerialManifest

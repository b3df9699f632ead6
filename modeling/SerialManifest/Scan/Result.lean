import SerialManifest.Contract
import SerialManifest.Walk

namespace SerialManifest

/-- How much was looked at: roots, definitions, those with governed names, those listed (each time they
were found), and those held to the contract. -/
structure Tally where
  roots : Nat
  candidates : Nat
  included : Nat
  eligible : Nat
  checked : Nat
deriving DecidableEq, Repr

def Tally.zero : Tally := ⟨0, 0, 0, 0, 0⟩

structure ScanResult where
  manifestName : String
  manifest : List String
  violations : List Violation
  tally : Tally
deriving DecidableEq, Repr

inductive ScanState where
  | idle
  | scanning
  | succeeded
  | failed
deriving DecidableEq, Repr

def ScanState.name : ScanState → String
  | .idle => "idle"
  | .scanning => "scanning"
  | .succeeded => "succeeded"
  | .failed => "failed"

inductive ScanError where
  | walk (error : WalkError)
  | query (error : QueryError)
  | violations (manifestName : String) (found : List Violation)
  | alreadyUsed (state : ScanState)
deriving DecidableEq, Repr

namespace Violation

def reportHeader (manifestName : String) : String :=
  "Failed to generate " ++ manifestName ++ " due to errors:"

/-- A report: the header and an indented line for each violation. -/
def report (manifestName : String) (violations : List Violation) : String :=
  violations.foldl (fun text violation => text ++ "\n    " ++ violation.message)
    (reportHeader manifestName)

end Violation

def ScanError.message : ScanError → String
  | .walk error => error.message
  | .query error => error.message
  | .violations manifestName found => Violation.report manifestName found
  | .alreadyUsed state => "Scan aggregator already used (state: " ++ state.name ++ ")"

namespace ScanResult

def defaultManifestName : String := "classnames.properties"

def passed (result : ScanResult) : Bool :=
  result.violations.isEmpty

def violationsFor (result : ScanResult) (subject : String) : List Violation :=
  result.violations.filter (·.subject == subject)

def intoManifest (result : ScanResult) : Except ScanError (List String) :=
  if result.passed then .ok result.manifest
  else .error (.violations result.manifestName result.violations)

theorem intoManifest_eq_ok_iff {result : ScanResult} {names : List String} :
    result.intoManifest = .ok names ↔ result.violations = [] ∧ result.manifest = names := by
  by_cases h : result.violations = [] <;> simp [intoManifest, passed, h]

end ScanResult

end SerialManifest

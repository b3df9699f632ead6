import SerialManifest.Report.Json
import SerialManifest.Scan.Result

namespace SerialManifest

def Json.generator : Json :=
  .object [("name", .text "generator"), ("version", .text "0.1.0")]

def Violation.summary (violation : Violation) : Json :=
  .object [
    ("kind", .text violation.kind.name),
    ("message", .text violation.message),
    ("subject_type", .text violation.subject)]

namespace ScanResult

def status (result : ScanResult) : String :=
  if result.passed then "succeeded" else "failed"

def counts (result : ScanResult) : Json :=
  .object [
    ("candidates", .number result.tally.candidates),
    ("contract_checked", .number result.tally.checked),
    ("included", .number result.tally.included),
    ("manifest_eligible", .number result.tally.eligible),
    ("manifest_entries", .number result.manifest.length),
    ("roots", .number result.tally.roots),
    ("violations", .number result.violations.length)]

def summary (result : ScanResult) : Json :=
  .object [
    ("generator", .generator),
    ("status", .text result.status),
    ("summary", result.counts),
    ("violations", .array (result.violations.map Violation.summary))]

end ScanResult

end SerialManifest

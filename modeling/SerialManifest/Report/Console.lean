import SerialManifest.Scan.Result

namespace SerialManifest.ScanResult

def rule (left right : String) : String :=
  left ++ String.ofList (List.replicate 79 '─') ++ right

def coloredStatus (result : ScanResult) : String :=
  (if result.passed then "\x1b[32m✓ PASS" else "\x1b[31m✗ FAIL") ++ "\x1b[0m"

def boxLines (result : ScanResult) : List String :=
  [rule "┌" "┐",
   "│ " ++ result.manifestName,
   rule "├" "┤",
   "│ Status:      " ++ result.coloredStatus,
   "│ Roots:       " ++ toString result.tally.roots,
   "│ Candidates:  " ++ toString result.tally.candidates,
   "│ Included:    " ++ toString result.tally.included,
   "│ Manifest:    " ++ toString result.manifest.length ++ " entries (" ++
     toString result.tally.eligible ++ " eligible definitions)",
   "│ Checked:     " ++ toString result.tally.checked ++ " types, " ++
     toString result.violations.length ++ " violation(s)",
   rule "└" "┘"]

def box (result : ScanResult) : String :=
  (("" :: result.boxLines) ++ [""]).foldl (fun text line => text ++ line ++ "\n") ""

end SerialManifest.ScanResult

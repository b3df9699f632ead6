import SerialManifest.Eligibility
import SerialManifest.Scan.Result

namespace SerialManifest

/-- What a scan has gathered so far. The names are in increasing order. -/
structure Gathered where
  names : List String
  violations : List Violation
  tally : Tally
deriving DecidableEq, Repr

abbrev Scan (σ : Type) := ExceptT ScanError (StateM σ)

def Scan.ask {σ α : Type} (query : Query σ α) : Scan σ α :=
  query.adapt ScanError.query

/-- Adds a name to a list in increasing order, unless it is there. -/
def insertName (name : String) : List String → List String
  | [] => [name]
  | first :: rest =>
    if name < first then name :: first :: rest
    else if name = first then first :: rest
    else first :: insertName name rest

namespace Gathered

def nothing : Gathered := ⟨[], [], .zero⟩

def countRoot (gathered : Gathered) : Gathered :=
  { gathered with tally := { gathered.tally with roots := gathered.tally.roots + 1 } }

def countCandidate (gathered : Gathered) : Gathered :=
  { gathered with tally := { gathered.tally with candidates := gathered.tally.candidates + 1 } }

def countIncluded (gathered : Gathered) : Gathered :=
  { gathered with tally := { gathered.tally with included := gathered.tally.included + 1 } }

def accept (gathered : Gathered) (name : String) : Gathered :=
  { gathered with
    names := insertName name gathered.names
    tally := { gathered.tally with eligible := gathered.tally.eligible + 1 } }

def noteCheck (gathered : Gathered) (violations : List Violation) : Gathered :=
  { gathered with
    violations := gathered.violations ++ violations
    tally := { gathered.tally with checked := gathered.tally.checked + 1 } }

end Gathered

/-- A scanner: what it looks for, the name of the manifest, and where it is in its life. -/
structure Scanner where
  rules : EligibilityRules
  contract : FieldContract
  manifestName : String
  state : ScanState
deriving DecidableEq, Repr

namespace Scanner

variable {σ : Type}

def fresh (rules : EligibilityRules) (contract : FieldContract) (manifestName : String) : Scanner :=
  { rules, contract, manifestName, state := .idle }

def examine (scanner : Scanner) (facts : TypeFacts σ) (gathered : Gathered) (candidate : Candidate) :
    Scan σ Gathered := do
  let counted := gathered.countCandidate
  match ← Scan.ask (scanner.rules.classify facts candidate.name) with
  | .excluded => return counted
  | .ineligible => return counted.countIncluded
  | .manifestOnly => return counted.countIncluded.accept candidate.name
  | .contractCheckable =>
    let violations ← Scan.ask (scanner.contract.check facts candidate.name)
    return (counted.countIncluded.noteCheck violations).accept candidate.name

def examineRoot (scanner : Scanner) (tree : FileTree) (facts : TypeFacts σ) (gathered : Gathered)
    (root : String) : Scan σ Gathered :=
  (tree.walk root).foldM ScanError.walk (scanner.examine facts) gathered.countRoot

def examineAll (scanner : Scanner) (tree : FileTree) (facts : TypeFacts σ) (roots : List String) :
    Scan σ ScanResult := do
  let gathered ← roots.foldlM (scanner.examineRoot tree facts) .nothing
  return ⟨scanner.manifestName, gathered.names, gathered.violations, gathered.tally⟩

def stateAfter : Except ScanError ScanResult → ScanState
  | .ok result => if result.passed then .succeeded else .failed
  | .error _ => .failed

/-- Scans the roots, or refuses if the scanner has been used. A failed walk or question ends the scan at once;
a violation never does. -/
def scan (scanner : Scanner) (tree : FileTree) (facts : TypeFacts σ) (roots : List String) :
    StateM σ (Except ScanError ScanResult × Scanner) :=
  match scanner.state with
  | .idle => do
    let outcome ← ({ scanner with state := .scanning }.examineAll tree facts roots).run
    return (outcome, { scanner with state := stateAfter outcome })
  | used => return (.error (.alreadyUsed used), scanner)

end Scanner

def generateManifest {σ : Type} (tree : FileTree) (facts : TypeFacts σ) (rules : EligibilityRules)
    (contract : FieldContract) (roots : List String) : StateM σ (Except ScanError (List String)) := do
  let (outcome, _) ←
    (Scanner.fresh rules contract ScanResult.defaultManifestName).scan tree facts roots
  return outcome.bind ScanResult.intoManifest

theorem mem_insertName {name other : String} {names : List String} :
    other ∈ insertName name names ↔ other = name ∨ other ∈ names := by
  induction names with
  | nil => simp [insertName]
  | cons first rest ih =>
    rw [insertName]
    split
    · simp
    · split
      next h => simp [h]
      next => simp [ih, or_left_comm]

end SerialManifest

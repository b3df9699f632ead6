import SerialManifest.Proofs.ClasspathHierarchy
import SerialManifest.Proofs.FixedAnswers
import SerialManifest.Scan.Scanner

namespace SerialManifest

variable {σ α : Type}

/-- A scan that gathers in place. What has been gathered is there even if the scan breaks off. -/
abbrev GatheringScan (σ : Type) := ExceptT ScanError (StateT Gathered (StateM σ))

namespace GatheringScan

def ask (query : Query σ α) : GatheringScan σ α :=
  ExceptT.mk (StateT.lift (Scan.ask query).run)

def runFrom (action : GatheringScan σ α) (gathered : Gathered) (memory : σ) :
    (Except ScanError α × Gathered) × σ :=
  (action.run.run gathered).run memory

theorem runFrom_bind {β : Type} (action : GatheringScan σ α) (next : α → GatheringScan σ β) (gathered : Gathered)
    (memory : σ) : (action >>= next).runFrom gathered memory =
      match action.runFrom gathered memory with
      | ((.ok value, after), later) => (next value).runFrom after later
      | ((.error error, left), later) => ((.error error, left), later) := by
  simp only [runFrom, ExceptT.run_bind, StateT.run_bind]
  generalize (action.run.run gathered).run memory = ended
  obtain ⟨⟨outcome, after⟩, later⟩ := ended
  cases outcome <;> rfl

theorem runFrom_ask (query : Query σ α) (gathered : Gathered) (memory : σ) :
    (ask query).runFrom gathered memory =
      ((((Scan.ask query).run.run memory).1, gathered), ((Scan.ask query).run.run memory).2) :=
  rfl

/-- With this gathered, the scan in place does what the scan does that returns what has been gathered. -/
def Performs (action : GatheringScan σ Unit) (gathered : Gathered) (scan : Scan σ Gathered) : Prop :=
  ∀ memory,
    match scan.run.run memory with
    | (.ok after, later) => action.runFrom gathered memory = ((.ok (), after), later)
    | (.error error, later) => ∃ left, action.runFrom gathered memory = ((.error error, left), later)

namespace Performs

variable {action : GatheringScan σ Unit} {scan : Scan σ Gathered} {gathered : Gathered}

theorem pure : Performs (Pure.pure () : GatheringScan σ Unit) gathered (Pure.pure gathered) :=
  fun _ => rfl

theorem throw (error : ScanError) : Performs (throw error : GatheringScan σ Unit) gathered (throw error) :=
  fun _ => ⟨gathered, rfl⟩

theorem modify_then {change : Gathered → Gathered} (h : Performs action (change gathered) scan) :
    Performs (do modify change; action) gathered scan :=
  h

theorem bind {next : Unit → GatheringScan σ Unit} {rest : Gathered → Scan σ Gathered}
    (h : Performs action gathered scan) (hn : ∀ after, Performs (next ()) after (rest after)) :
    Performs (action >>= next) gathered (scan >>= rest) := by
  intro memory
  have hfirst := h memory
  rw [run_bind, runFrom_bind]
  generalize scan.run.run memory = ended at hfirst
  obtain ⟨outcome, later⟩ := ended
  cases outcome with
  | ok after =>
    rw [hfirst]
    exact hn after later
  | error error =>
    obtain ⟨left, hleft⟩ := hfirst
    rw [hleft]
    exact ⟨left, rfl⟩

theorem ask_bind {query : Query σ α} {next : α → GatheringScan σ Unit} {rest : α → Scan σ Gathered}
    (hn : ∀ answer, Performs (next answer) gathered (rest answer)) :
    Performs (ask query >>= next) gathered (Scan.ask query >>= rest) := by
  intro memory
  rw [run_bind, runFrom_bind, runFrom_ask]
  generalize (Scan.ask query).run.run memory = ended
  obtain ⟨outcome, later⟩ := ended
  cases outcome with
  | ok answer => exact hn answer later
  | error error => exact ⟨gathered, rfl⟩

theorem foldlM {γ : Type} {visit : γ → GatheringScan σ Unit} {step : Gathered → γ → Scan σ Gathered}
    (h : ∀ gathered item, Performs (visit item) gathered (step gathered item)) (items : List γ)
    (gathered : Gathered) :
    Performs (items.foldlM (fun _ item => visit item) ()) gathered (items.foldlM step gathered) := by
  induction items generalizing gathered with
  | nil => exact .pure
  | cons item items ih => exact (h gathered item).bind ih

end Performs

end GatheringScan

namespace Gathered

def countChecked (gathered : Gathered) : Gathered :=
  { gathered with tally := { gathered.tally with checked := gathered.tally.checked + 1 } }

def addViolations (gathered : Gathered) (violations : List Violation) : Gathered :=
  { gathered with violations := gathered.violations ++ violations }

end Gathered

open GatheringScan (Performs)

namespace Scanner

def examineInPlace (scanner : Scanner) (facts : TypeFacts σ) (candidate : Candidate) :
    GatheringScan σ Unit := do
  modify Gathered.countCandidate
  match ← GatheringScan.ask (scanner.rules.classify facts candidate.name) with
  | .excluded => return ()
  | .ineligible => modify Gathered.countIncluded
  | .manifestOnly => modify fun gathered => gathered.countIncluded.accept candidate.name
  | .contractCheckable =>
    modify fun gathered => gathered.countIncluded.countChecked
    let violations ← GatheringScan.ask (scanner.contract.check facts candidate.name)
    modify fun gathered => (gathered.addViolations violations).accept candidate.name

def examineRootInPlace (scanner : Scanner) (tree : FileTree) (facts : TypeFacts σ) (root : String) :
    GatheringScan σ Unit := do
  modify Gathered.countRoot
  (tree.walk root).foldM ScanError.walk (fun _ candidate => scanner.examineInPlace facts candidate) ()

variable (scanner : Scanner) (tree : FileTree) (facts : TypeFacts σ)

theorem examineInPlace_performs (gathered : Gathered) (candidate : Candidate) :
    Performs (scanner.examineInPlace facts candidate) gathered
      (scanner.examine facts gathered candidate) := by
  refine .modify_then (.ask_bind fun eligibility => ?_)
  cases eligibility with
  | excluded => exact .pure
  | contractCheckable => exact .modify_then (.ask_bind fun violations => .modify_then .pure)
  | _ => exact .modify_then .pure

theorem examineRootInPlace_performs (gathered : Gathered) (root : String) :
    Performs (scanner.examineRootInPlace tree facts root) gathered
      (scanner.examineRoot tree facts gathered root) := by
  have hfound := Performs.foldlM (scanner.examineInPlace_performs facts) (tree.walk root).found
  refine .modify_then (.bind (hfound gathered.countRoot) fun after => ?_)
  cases (tree.walk root).failure with
  | none => exact .pure
  | some error => exact .throw _

end Scanner

/-- A scanner that is left with what it has gathered, whole or in part. -/
structure Aggregator where
  scanner : Scanner
  gathered : Gathered
deriving DecidableEq, Repr

namespace Aggregator

def finish (scanner : Scanner) : Except ScanError Unit × Gathered → Except ScanError ScanResult × Aggregator
  | (.error error, left) => (.error error, ⟨{ scanner with state := .failed }, left⟩)
  | (.ok (), gathered) =>
    let result : ScanResult := ⟨scanner.manifestName, gathered.names, gathered.violations, gathered.tally⟩
    let state := if result.passed then .succeeded else .failed
    (.ok result, ⟨{ scanner with state }, { gathered with names := [], violations := [] }⟩)

def scan (aggregator : Aggregator) (tree : FileTree) (facts : TypeFacts σ) (roots : List String) :
    StateM σ (Except ScanError ScanResult × Aggregator) :=
  match aggregator.scanner.state with
  | .idle => do
    let scanner := { aggregator.scanner with state := .scanning }
    let scanned := roots.foldlM (fun _ root => scanner.examineRootInPlace tree facts root) ()
    return finish scanner (← scanned.run.run aggregator.gathered)
  | used => return (.error (.alreadyUsed used), aggregator)

/-- A scanner that may still be used has gathered nothing. -/
def Tidy (aggregator : Aggregator) : Prop :=
  aggregator.scanner.state = .idle → aggregator.gathered = .nothing

def withoutGathered (ended : Except ScanError ScanResult × Aggregator) :
    Except ScanError ScanResult × Scanner :=
  (ended.1, ended.2.scanner)

variable {aggregator : Aggregator} {tree : FileTree} {facts : TypeFacts σ} {roots : List String}

/-- Scanning in place comes to what scanning comes to, and what is left behind does not show. -/
theorem run_scan_eq (tidy : aggregator.Tidy) (memory : σ) :
    Prod.map withoutGathered id ((aggregator.scan tree facts roots).run memory) =
      (aggregator.scanner.scan tree facts roots).run memory := by
  unfold scan Scanner.scan
  cases hstate : aggregator.scanner.state with
  | idle =>
    let scanner := { aggregator.scanner with state := .scanning }
    have hroots := Performs.foldlM (scanner.examineRootInPlace_performs tree facts) roots .nothing memory
    let inPlace := (roots.foldlM (fun _ root => scanner.examineRootInPlace tree facts root) ()).runFrom
      aggregator.gathered memory
    let anew := (scanner.examineAll tree facts roots).run.run memory
    change Prod.map withoutGathered id (finish scanner inPlace.1, inPlace.2) =
      ((anew.1, { scanner with state := Scanner.stateAfter anew.1 }), anew.2)
    simp only [inPlace, anew, tidy hstate, Scanner.examineAll, run_bind]
    generalize (roots.foldlM (scanner.examineRoot tree facts) .nothing).run.run memory = ended at hroots ⊢
    obtain ⟨outcome, later⟩ := ended
    cases outcome with
    | ok gathered =>
      rw [hroots]
      rfl
    | error error =>
      obtain ⟨left, hleft⟩ := hroots
      rw [hleft]
      rfl
  | _ => rfl

/-- A scan that breaks off at its second root leaves what it has gathered below the first one. -/
example :
    let rules : EligibilityRules := ⟨["A", "B"], "java.io.Serializable", []⟩
    let aggregator : Aggregator := ⟨.fresh rules (.version "serialVersionUID") "classes", .nothing⟩
    let classpath := (Classpath.empty.addRoot Classpath.cyclicTree "lib").1
    let ended := ((aggregator.scan Classpath.cyclicTree (classpath.facts Classpath.cyclicTree)
      ["lib", "other"]).run .empty).1
    ended.1.toOption = none ∧ ended.2.scanner.state = .failed ∧ ended.2.gathered.names = ["A", "B"] := by
  decide +kernel

end Aggregator

end SerialManifest

import SerialManifest.Proofs.ClasspathIndex
import SerialManifest.Proofs.FixedAnswers
import SerialManifest.Scan.Scanner

namespace SerialManifest

/-- What becomes of a type, and the violations that a check brings to light. -/
structure Judgement where
  eligibility : Eligibility
  violations : List Violation

/-- Fixed answers to the questions of a scan. -/
structure Verdicts where
  eligibility : String → Except QueryError Eligibility
  violations : String → Except QueryError (List Violation)

/-- What a name is judged to be. Only types that are held to the contract are checked. -/
def Verdicts.judge (verdicts : Verdicts) (name : String) : Except QueryError Judgement :=
  (verdicts.eligibility name).bind fun eligibility =>
    if eligibility = .contractCheckable then (verdicts.violations name).map (⟨eligibility, ·⟩)
    else .ok ⟨eligibility, []⟩

namespace Gathered

def note (gathered : Gathered) (name : String) (judgement : Judgement) : Gathered where
  names := if judgement.eligibility.inManifest then insertName name gathered.names else gathered.names
  violations := gathered.violations ++ judgement.violations
  tally :=
    { roots := gathered.tally.roots
      candidates := gathered.tally.candidates + 1
      included := gathered.tally.included + if judgement.eligibility = .excluded then 0 else 1
      eligible := gathered.tally.eligible + if judgement.eligibility.inManifest then 1 else 0
      checked := gathered.tally.checked + if judgement.eligibility = .contractCheckable then 1 else 0 }

def noteAll (gathered : Gathered) (judge : String → Judgement) (candidates : List Candidate) :
    Gathered where
  names := (candidates.filter fun candidate => (judge candidate.name).eligibility.inManifest).foldl
    (fun names candidate => insertName candidate.name names) gathered.names
  violations := gathered.violations ++ candidates.flatMap fun candidate => (judge candidate.name).violations
  tally :=
    { roots := gathered.tally.roots
      candidates := gathered.tally.candidates + candidates.length
      included := gathered.tally.included +
        candidates.countP fun candidate => (judge candidate.name).eligibility ≠ .excluded
      eligible := gathered.tally.eligible +
        candidates.countP fun candidate => (judge candidate.name).eligibility.inManifest
      checked := gathered.tally.checked +
        candidates.countP fun candidate => (judge candidate.name).eligibility = .contractCheckable }

theorem noteAll_nil (gathered : Gathered) (judge : String → Judgement) :
    gathered.noteAll judge [] = gathered := by
  simp [noteAll]

theorem noteAll_cons (gathered : Gathered) (judge : String → Judgement) (candidate : Candidate)
    (rest : List Candidate) : gathered.noteAll judge (candidate :: rest) =
      (gathered.note candidate.name (judge candidate.name)).noteAll judge rest := by
  simp only [noteAll, note, List.filter_cons, List.flatMap_cons, List.countP_cons, List.length_cons]
  congr 1
  · split <;> simp
  · simp
  · congr 1
    · omega
    · simp only [ne_eq, decide_not, Bool.not_eq_true', decide_eq_false_iff_not, ite_not]
      omega
    · omega
    · simp only [decide_eq_true_eq]
      omega

theorem noteAll_append (gathered : Gathered) (judge : String → Judgement) (first rest : List Candidate) :
    gathered.noteAll judge (first ++ rest) = (gathered.noteAll judge first).noteAll judge rest := by
  induction first generalizing gathered with
  | nil => rw [noteAll_nil, List.nil_append]
  | cons candidate first ih => rw [List.cons_append, noteAll_cons, noteAll_cons, ih]

def countRoots (gathered : Gathered) (count : Nat) : Gathered :=
  { gathered with tally := { gathered.tally with roots := gathered.tally.roots + count } }

theorem countRoots_noteAll (gathered : Gathered) (judge : String → Judgement) (candidates : List Candidate)
    (count : Nat) :
    (gathered.noteAll judge candidates).countRoots count =
      (gathered.countRoots count).noteAll judge candidates :=
  rfl

end Gathered

namespace Scanner

variable {σ : Type} {Good : σ → Prop} {scanner : Scanner} {facts : TypeFacts σ} {tree : FileTree}
variable {verdicts : Verdicts}

def examined (verdicts : Verdicts) (gathered : Gathered) (candidate : Candidate) :
    Except ScanError Gathered :=
  ((verdicts.judge candidate.name).mapError .query).map (gathered.note candidate.name)

def examinedRoot (tree : FileTree) (verdicts : Verdicts) (gathered : Gathered) (root : String) :
    Except ScanError Gathered :=
  ((tree.walk root).found.foldlM (examined verdicts) gathered.countRoot).bind fun last =>
    match (tree.walk root).failure with
    | none => .ok last
    | some error => .error (.walk error)

def outcome (scanner : Scanner) (tree : FileTree) (verdicts : Verdicts) (roots : List String) :
    Except ScanError ScanResult :=
  (roots.foldlM (examinedRoot tree verdicts) .nothing).map fun gathered =>
    ⟨scanner.manifestName, gathered.names, gathered.violations, gathered.tally⟩

/-- The questions of a scanner have these answers, whatever is remembered. -/
structure Settled (scanner : Scanner) (facts : TypeFacts σ) (Good : σ → Prop) (verdicts : Verdicts) :
    Prop where
  eligibility : ∀ name, Gives Good (scanner.rules.classify facts name) (verdicts.eligibility name)
  violations : ∀ name, Gives Good (scanner.contract.check facts name) (verdicts.violations name)

theorem examined_eq (gathered : Gathered) (candidate : Candidate) :
    examined verdicts gathered candidate =
      ((verdicts.eligibility candidate.name).mapError .query).bind fun eligibility =>
        match eligibility with
        | .excluded => .ok gathered.countCandidate
        | .ineligible => .ok gathered.countCandidate.countIncluded
        | .manifestOnly => .ok (gathered.countCandidate.countIncluded.accept candidate.name)
        | .contractCheckable =>
          ((verdicts.violations candidate.name).mapError .query).bind fun violations =>
            .ok ((gathered.countCandidate.countIncluded.noteCheck violations).accept candidate.name) := by
  unfold examined Verdicts.judge
  cases verdicts.eligibility candidate.name with
  | error error => rfl
  | ok eligibility =>
    cases eligibility with
    | contractCheckable =>
      dsimp only [Except.bind, Except.mapError_ok]
      rw [if_pos rfl]
      cases verdicts.violations candidate.name <;> rfl
    | _ =>
      simp [Except.bind, Except.map, Gathered.note, Eligibility.inManifest,
        Gathered.countCandidate, Gathered.countIncluded, Gathered.accept]

theorem examine_gives (settled : scanner.Settled facts Good verdicts) (gathered : Gathered)
    (candidate : Candidate) :
    Gives Good (scanner.examine facts gathered candidate) (examined verdicts gathered candidate) := by
  rw [examined_eq]
  refine ((settled.eligibility candidate.name).adapt ScanError.query).bind fun eligibility _ => ?_
  cases eligibility with
  | contractCheckable =>
    exact ((settled.violations candidate.name).adapt ScanError.query).bind fun violations _ => .pure _
  | _ => exact .pure _

theorem examineRoot_gives (settled : scanner.Settled facts Good verdicts) (gathered : Gathered)
    (root : String) : Gives Good (scanner.examineRoot tree facts gathered root)
      (examinedRoot tree verdicts gathered root) := by
  refine (Gives.foldlM (examine_gives settled) _ _).bind fun last _ => ?_
  cases (tree.walk root).failure with
  | none => exact .pure last
  | some error => exact .throw _

/-- What a scan comes to does not hang on what is remembered. -/
theorem examineAll_gives (settled : scanner.Settled facts Good verdicts) (roots : List String) :
    Gives Good (scanner.examineAll tree facts roots) (scanner.outcome tree verdicts roots) := by
  have he : scanner.outcome tree verdicts roots =
      (roots.foldlM (examinedRoot tree verdicts) .nothing).bind fun gathered =>
        .ok ⟨scanner.manifestName, gathered.names, gathered.violations, gathered.tally⟩ := by
    unfold outcome
    cases roots.foldlM (examinedRoot tree verdicts) .nothing <;> rfl
  rw [he]
  exact (Gives.foldlM (examineRoot_gives settled) roots _).bind fun _ _ => .pure _

/-- How a scanner ends for which examining all roots comes to this. One that has been used refuses. -/
def ended (scanner : Scanner) (outcome : Except ScanError ScanResult) :
    Except ScanError ScanResult × Scanner :=
  match scanner.state with
  | .idle => (outcome, { scanner with state := stateAfter outcome })
  | used => (.error (.alreadyUsed used), scanner)

theorem ended_eq_ok_iff {outcome : Except ScanError ScanResult} {result : ScanResult} :
    (scanner.ended outcome).1 = .ok result ↔ scanner.state = .idle ∧ outcome = .ok result := by
  unfold ended
  cases scanner.state with
  | idle => simp
  | _ => simp

theorem scan_gives (settled : scanner.Settled facts Good verdicts) {memory : σ} (good : Good memory)
    (roots : List String) : ((scanner.scan tree facts roots).run memory).1 =
      scanner.ended (scanner.outcome tree verdicts roots) := by
  unfold scan ended
  cases hstate : scanner.state with
  | idle =>
    have settled' : { scanner with state := .scanning }.Settled facts Good verdicts :=
      ⟨settled.eligibility, settled.violations⟩
    have hrun : ((({ scanner with state := .scanning }.examineAll tree facts roots).run).run memory).1 =
        scanner.outcome tree verdicts roots := (examineAll_gives settled' roots memory good).1
    exact congrArg (fun outcome => (outcome, { scanner with state := stateAfter outcome })) hrun
  | _ => rfl

/-- What names are judged to be, where they are judged at all. -/
def judged (verdicts : Verdicts) (name : String) : Judgement :=
  match verdicts.judge name with
  | .ok judgement => judgement
  | .error _ => ⟨.excluded, []⟩

theorem judged_of_judge {name : String} {judgement : Judgement} (h : verdicts.judge name = .ok judgement) :
    judged verdicts name = judgement := by
  rw [judged, h]

theorem foldlM_examined_eq_ok_iff {candidates : List Candidate} {gathered last : Gathered} :
    candidates.foldlM (examined verdicts) gathered = .ok last ↔
      (∀ candidate ∈ candidates, ∃ judgement, verdicts.judge candidate.name = .ok judgement) ∧
        last = gathered.noteAll (judged verdicts) candidates := by
  induction candidates generalizing gathered with
  | nil => simp [Gathered.noteAll_nil, pure, Except.pure, eq_comm]
  | cons candidate rest ih =>
    rw [List.foldlM_cons, Gathered.noteAll_cons]
    cases hj : verdicts.judge candidate.name with
    | error error => simp [examined, hj, Except.map, bind, Except.bind]
    | ok judgement => simp [examined, judged, hj, Except.map, bind, Except.bind, ih]

theorem examinedRoot_eq_ok_iff {gathered last : Gathered} {root : String} :
    examinedRoot tree verdicts gathered root = .ok last ↔
      (tree.walk root).failure = none ∧
      (∀ candidate ∈ (tree.walk root).found, ∃ judgement, verdicts.judge candidate.name = .ok judgement) ∧
        last = (gathered.countRoots 1).noteAll (judged verdicts) (tree.walk root).found := by
  rw [examinedRoot, Except.bind_eq_ok_iff]
  simp only [foldlM_examined_eq_ok_iff]
  constructor
  · rintro ⟨middle, ⟨hall, rfl⟩, hlast⟩
    split at hlast
    next hf => exact ⟨hf, hall, (Except.ok.inj hlast).symm⟩
    next => cases hlast
  · rintro ⟨hf, hall, rfl⟩
    exact ⟨_, ⟨hall, rfl⟩, by rw [hf]; rfl⟩

theorem foldlM_examinedRoot_eq_ok_iff {roots : List String} {gathered last : Gathered} :
    roots.foldlM (examinedRoot tree verdicts) gathered = .ok last ↔
      (∀ root ∈ roots, (tree.walk root).failure = none) ∧
      (∀ candidate ∈ tree.findings roots, ∃ judgement, verdicts.judge candidate.name = .ok judgement) ∧
        last = (gathered.countRoots roots.length).noteAll (judged verdicts) (tree.findings roots) := by
  induction roots generalizing gathered with
  | nil => simp [FileTree.findings, Gathered.noteAll_nil, Gathered.countRoots, pure, Except.pure, eq_comm]
  | cons root roots ih =>
    have hcount : ∀ middle : Gathered, middle.countRoots (roots.length + 1) =
        (middle.countRoots 1).countRoots roots.length := by
      intro middle
      simp [Gathered.countRoots, Nat.add_assoc, Nat.add_comm 1]
    rw [List.foldlM_cons, List.length_cons, hcount]
    change (examinedRoot tree verdicts gathered root).bind _ = _ ↔ _
    rw [Except.bind_eq_ok_iff]
    simp only [examinedRoot_eq_ok_iff, ih, FileTree.findings, List.flatMap_cons, List.forall_mem_append,
      List.forall_mem_cons, Gathered.noteAll_append, ← Gathered.countRoots_noteAll]
    constructor
    · rintro ⟨middle, ⟨hf, hall, rfl⟩, hfs, halls, rfl⟩
      exact ⟨⟨hf, hfs⟩, ⟨hall, halls⟩, rfl⟩
    · rintro ⟨⟨hf, hfs⟩, ⟨hall, halls⟩, rfl⟩
      exact ⟨_, ⟨hf, hall, rfl⟩, hfs, halls, rfl⟩

/-- A scan succeeds if all walks do and every name can be judged, and then it has taken down all that was
found. -/
theorem outcome_eq_ok_iff {roots : List String} {result : ScanResult} :
    scanner.outcome tree verdicts roots = .ok result ↔
      (∀ root ∈ roots, (tree.walk root).failure = none) ∧
      (∀ candidate ∈ tree.findings roots, ∃ judgement, verdicts.judge candidate.name = .ok judgement) ∧
        ∃ gathered, gathered = (Gathered.nothing.countRoots roots.length).noteAll (judged verdicts)
            (tree.findings roots) ∧
          result = ⟨scanner.manifestName, gathered.names, gathered.violations, gathered.tally⟩ := by
  rw [outcome, Except.map_eq_ok_iff]
  simp only [foldlM_examinedRoot_eq_ok_iff]
  constructor
  · rintro ⟨gathered, ⟨hf, hall, hg⟩, rfl⟩
    exact ⟨hf, hall, gathered, hg, rfl⟩
  · rintro ⟨hf, hall, gathered, hg, rfl⟩
    exact ⟨gathered, ⟨hf, hall, hg⟩, rfl⟩

theorem judge_of_found {roots : List String} {result : ScanResult}
    (h : scanner.outcome tree verdicts roots = .ok result)
    {candidate : Candidate} (hm : candidate ∈ tree.findings roots) :
    verdicts.judge candidate.name = .ok (judged verdicts candidate.name) := by
  obtain ⟨_, hall, _⟩ := outcome_eq_ok_iff.1 h
  obtain ⟨judgement, hj⟩ := hall candidate hm
  rw [judged_of_judge hj, hj]

end Scanner

end SerialManifest

import SerialManifest.Proofs.RunOutputs

namespace SerialManifest

def ScanResult.summaryContent (result : ScanResult) : Content :=
  .bytes (Text.Utf8.encode result.summary.render)

def ScanResult.summaryNode (result : ScanResult) : Node :=
  .file result.summaryContent

theorem FileTree.run_write (tree : FileTree) (path : String) (data : List UInt8) :
    (write path data).run.run tree =
      match tree.resolveForWriting path with
      | .error fault => (.error fault, tree)
      | .ok place => (.ok (), tree.fill place (.bytes data)) := by
  unfold write
  rw [run_get_bind]
  cases tree.resolveForWriting path <;> rfl

theorem ScanResult.run_writeSummary (result : ScanResult) (path : String) (tree : FileTree) :
    (result.writeSummary path).run.run tree =
      match tree.resolveForWriting path with
      | .error fault => (.error (.write path fault), tree)
      | .ok place => (.ok (), tree.fill place result.summaryContent) := by
  unfold writeSummary FileAction.orFail
  rw [run_adapt, FileTree.run_write]
  cases tree.resolveForWriting path <;> rfl

theorem ScanResult.intoManifest_of_broken {result : ScanResult} (h : result.violations ≠ []) :
    result.intoManifest = .error (.violations result.manifestName result.violations) := by
  simp [intoManifest, passed, h]

namespace Generation

variable {α : Type}

theorem run_require_error {ε : Type} (raise : ε → RunError) {outcome : Except ε α} {error : ε}
    (h : outcome = .error error) (state : RunState) :
    (require raise outcome).run.run state = (.error (raise error), state) := by
  rw [h]
  rfl

end Generation

namespace Settings

variable {settings : Settings} {tree : FileTree} {result : ScanResult}

def summarized (settings : Settings) (result : ScanResult) (tree : FileTree) : Except OutputError FileTree :=
  match settings.summaryFile with
  | none => .ok tree
  | some path =>
    match tree.resolveForWriting path with
    | .error fault => .error (.write path fault)
    | .ok place => .ok (tree.fill place result.summaryContent)

/-- The place of the file into which the summary is written, if one is asked for. -/
def SummaryPlace (settings : Settings) (tree : FileTree) (place : Location) : Prop :=
  ∃ path, settings.summaryFile = some path ∧ tree.resolveForWriting path = .ok place

def writeManifest (settings : Settings) (result : ScanResult) : Output Unit :=
  Manifest.write settings.manifestFile settings.header result.manifest

theorem summarized_eq_ok_iff {files : FileTree} : settings.summarized result tree = .ok files ↔
    settings.summaryFile = none ∧ files = tree ∨
      ∃ place, settings.SummaryPlace tree place ∧ files = tree.fill place result.summaryContent := by
  unfold summarized SummaryPlace
  cases settings.summaryFile with
  | none => simp [eq_comm]
  | some path => cases hr : tree.resolveForWriting path <;> simp [hr, eq_comm]

theorem summarized_eq_error_iff {error : OutputError} : settings.summarized result tree = .error error ↔
    ∃ path fault, settings.summaryFile = some path ∧ tree.resolveForWriting path = .error fault ∧
      error = .write path fault := by
  unfold summarized
  cases settings.summaryFile with
  | none => simp
  | some path => cases hr : tree.resolveForWriting path <;> simp [hr, eq_comm]

theorem run_summarize_ok {files : FileTree} {state : RunState}
    (h : settings.summarized result state.files = .ok files) :
    (settings.summarize result).run.run state = (.ok (), { state with files }) := by
  unfold summarize
  rcases summarized_eq_ok_iff.1 h with ⟨hf, rfl⟩ | ⟨place, ⟨path, hf, hp⟩, rfl⟩
  · rw [hf]
    rfl
  · simp only [hf, Generation.run_put, ScanResult.run_writeSummary, hp]
    rfl

theorem run_summarize_error {error : OutputError} {state : RunState}
    (h : settings.summarized result state.files = .error error) :
    (settings.summarize result).run.run state = (.error (.output error), state) := by
  obtain ⟨path, fault, hf, hp, rfl⟩ := summarized_eq_error_iff.1 h
  unfold summarize
  simp only [hf, Generation.run_put, ScanResult.run_writeSummary, hp]
  rfl

theorem run_announce (settings : Settings) (result : ScanResult) (state : RunState) :
    ∃ printed, (settings.announce result).run.run state = (.ok (), { state with printed }) := by
  unfold announce
  cases settings.quiet with
  | true => exact ⟨state.printed, rfl⟩
  | false => exact ⟨state.printed ++ result.box, rfl⟩

/-- The ways in which a run on a file tree ends, with the files that it leaves behind. -/
inductive Ends (settings : Settings) (tree : FileTree) : Except RunError ScanResult → FileTree → Prop where
  | refused {error : SettingsError} (hvalid : settings.validate = .error error) :
    Ends settings tree (.error (.settings error)) tree
  | unscanned {error : ScanError} (hvalid : settings.validate = .ok ())
    (hscan : settings.scan tree = .error error) : Ends settings tree (.error (.scan error)) tree
  | unsummarized {result : ScanResult} {error : OutputError} (hvalid : settings.validate = .ok ())
    (hscan : settings.scan tree = .ok result) (hsummary : settings.summarized result tree = .error error) :
    Ends settings tree (.error (.output error)) tree
  | violated {result : ScanResult} {files : FileTree} (hvalid : settings.validate = .ok ())
    (hscan : settings.scan tree = .ok result) (hsummary : settings.summarized result tree = .ok files)
    (hbroken : result.violations ≠ []) :
    Ends settings tree (.error (.scan (.violations result.manifestName result.violations))) files
  | unwritten {result : ScanResult} {files later : FileTree} {error : OutputError}
    (hvalid : settings.validate = .ok ()) (hscan : settings.scan tree = .ok result)
    (hsummary : settings.summarized result tree = .ok files) (hkept : result.violations = [])
    (hwrite : (settings.writeManifest result).run.run files = (.error error, later)) :
    Ends settings tree (.error (.output error)) later
  | written {result : ScanResult} {files later : FileTree} (hvalid : settings.validate = .ok ())
    (hscan : settings.scan tree = .ok result) (hsummary : settings.summarized result tree = .ok files)
    (hkept : result.violations = [])
    (hwrite : (settings.writeManifest result).run.run files = (.ok (), later)) :
    Ends settings tree (.ok result) later

theorem ends_of_record {state ended : RunState} {outcome : Except RunError Unit}
    (hvalid : settings.validate = .ok ()) (hscan : settings.scan state.files = .ok result)
    (h : (settings.record result).run.run state = (outcome, ended)) :
    Ends settings state.files (outcome.map fun _ => result) ended.files := by
  unfold record at h
  cases hsummary : settings.summarized result state.files with
  | error error =>
    rw [run_bind_of_error (run_summarize_error hsummary)] at h
    cases h
    exact .unsummarized hvalid hscan hsummary
  | ok files =>
    obtain ⟨printed, hannounce⟩ := settings.run_announce result { state with files }
    rw [run_bind_of_ok (run_summarize_ok hsummary), run_bind_of_ok hannounce] at h
    by_cases hkept : result.violations = []
    · have hinto := ScanResult.intoManifest_eq_ok_iff.2 ⟨hkept, rfl⟩
      rw [run_bind_of_ok (Generation.require_eq_ok_iff.2 ⟨hinto, rfl⟩), Generation.run_put] at h
      generalize hwrite : (settings.writeManifest result).run.run files = after
      rw [show (Manifest.write _ _ _).run.run files = after from hwrite] at h
      obtain ⟨written, later⟩ := after
      cases h
      cases written with
      | error error => exact .unwritten hvalid hscan hsummary hkept hwrite
      | ok value => exact .written hvalid hscan hsummary hkept hwrite
    · have hinto := ScanResult.intoManifest_of_broken hkept
      rw [run_bind_of_error (Generation.run_require_error .scan hinto _)] at h
      cases h
      exact .violated hvalid hscan hsummary hkept

/-- Every run ends in one of these ways. -/
theorem ends_of_onFiles {ended : RunState} {outcome : Except RunError ScanResult}
    (h : settings.generate.onFiles tree = (outcome, ended)) : Ends settings tree outcome ended.files := by
  rw [Generation.onFiles, generate_eq] at h
  cases hvalid : settings.validate with
  | error error =>
    rw [run_bind_of_error (Generation.run_require_error .settings hvalid _)] at h
    cases h
    exact .refused hvalid
  | ok _ =>
    rw [run_bind_of_ok (Generation.require_eq_ok_iff.2 ⟨hvalid, rfl⟩), run_get_bind] at h
    cases hscan : settings.scan tree with
    | error error =>
      rw [run_bind_of_error (Generation.run_require_error .scan hscan _)] at h
      cases h
      exact .unscanned hvalid hscan
    | ok result =>
      rw [run_bind_of_ok (Generation.require_eq_ok_iff.2 ⟨hscan, rfl⟩)] at h
      generalize hrecord : (settings.record result).run.run ⟨tree, ""⟩ = after
      obtain ⟨recorded, later⟩ := after
      have hends := ends_of_record hvalid hscan hrecord
      cases recorded with
      | error error =>
        rw [run_bind_of_error hrecord] at h
        cases h
        exact hends
      | ok value =>
        rw [run_bind_of_ok hrecord] at h
        cases h
        exact hends

end Settings

end SerialManifest

import SerialManifest.Generation
import SerialManifest.Proofs.WholeFileWrite

namespace SerialManifest

/-- States of runs with file trees that are alike to writers, whatever has been printed. -/
def RunState.SameForWriting (first second : RunState) : Prop :=
  first.files.SameForWriting second.files

namespace Generation

theorem require_matches {ε α : Type} (raise : ε → RunError) (outcome : Except ε α) :
    Matches RunState.SameForWriting (require raise outcome) (require raise outcome) := by
  cases outcome with
  | error error => exact .throw _
  | ok value => exact .pure value

theorem require_eq_ok_iff {ε α : Type} {raise : ε → RunError} {outcome : Except ε α} {value : α}
    {state ended : RunState} :
    (require raise outcome).run.run state = (.ok value, ended) ↔ outcome = .ok value ∧ ended = state := by
  cases outcome with
  | error error => exact ⟨nofun, fun h => nomatch h.1⟩
  | ok found =>
    constructor
    · intro h
      cases h
      exact ⟨rfl, rfl⟩
    · rintro ⟨he, rfl⟩
      cases he
      rfl

theorem put_matches {α : Type} {output output' : Output α} (h : FileTree.Agree output output') :
    Matches RunState.SameForWriting (put output) (put output') := by
  refine .get_bind fun first second same => ?_
  obtain ⟨hr, hs⟩ := h first.files second.files same
  have hr : (output first.files).1 = (output' second.files).1 := hr
  refine Matches.bind (Matches.set hs) fun _ => ?_
  rw [hr]
  exact require_matches .output _

theorem run_put {α : Type} (output : Output α) (state : RunState) :
    (put output).run.run state = ((output.run.run state.files).1.mapError .output,
      { state with files := (output.run.run state.files).2 }) := by
  unfold put
  rw [run_get_bind]
  generalize output.run.run state.files = after
  obtain ⟨outcome, files⟩ := after
  cases outcome <;> rfl

theorem of_put {α : Type} {output : Output α} {value : α} {state ended : RunState}
    (h : (put output).run.run state = (.ok value, ended)) :
    output.run.run state.files = (.ok value, ended.files) := by
  rw [run_put] at h
  obtain ⟨hr, rfl⟩ := Prod.mk.inj h
  exact Prod.ext (Except.mapError_eq_ok_iff.1 hr) rfl

theorem print_matches (text text' : String) : Matches RunState.SameForWriting (print text) (print text') :=
  fun _ _ same => ⟨rfl, same⟩

end Generation

namespace Settings

variable {settings : Settings} {result result' : ScanResult}

/-- The part of a run behind the scan. -/
def record (settings : Settings) (result : ScanResult) : Generation Unit := do
  settings.summarize result
  settings.announce result
  let names ← Generation.require .scan result.intoManifest
  Generation.put (Manifest.write settings.manifestFile settings.header names)

theorem summarize_matches (result result' : ScanResult) :
    Matches RunState.SameForWriting (settings.summarize result) (settings.summarize result') := by
  unfold summarize
  split
  · exact .pure ()
  · exact Generation.put_matches (.adapt _ (FileTree.write_agree _ _ _))

theorem announce_matches (result result' : ScanResult) :
    Matches RunState.SameForWriting (settings.announce result) (settings.announce result') := by
  unfold announce
  split
  · exact .pure ()
  · exact Generation.print_matches _ _

theorem record_matches (h : result.intoManifest = result'.intoManifest) :
    Matches RunState.SameForWriting (settings.record result) (settings.record result') := by
  unfold record
  rw [h]
  refine (summarize_matches result result').bind fun _ => (announce_matches result result').bind fun _ =>
    (Generation.require_matches _ _).bind fun names => Generation.put_matches ?_
  exact (Matches.adapt _ (FileTree.createDirectories_agree _)).bind fun _ =>
    .adapt _ (FileTree.writeWhole_agree _ _ _)

/-- Where a result was recorded nothing broke the contract, and the manifest is there. -/
theorem of_record {state ended : RunState} (h : (settings.record result).run.run state = (.ok (), ended)) :
    result.violations = [] ∧ ended.files.Holds settings.manifestFile
      (.bytes (Text.Utf8.encode (Manifest.render settings.header result.manifest))) := by
  obtain ⟨_, _, _, h⟩ := run_bind_eq_ok_iff.1 h
  obtain ⟨_, _, _, h⟩ := run_bind_eq_ok_iff.1 h
  obtain ⟨names, _, hn, h⟩ := run_bind_eq_ok_iff.1 h
  obtain ⟨hv, rfl⟩ := ScanResult.intoManifest_eq_ok_iff.1 (Generation.require_eq_ok_iff.1 hn).1
  exact ⟨hv, Manifest.holds_of_write (Generation.of_put h)⟩

theorem generate_eq : settings.generate = (do
    Generation.require .settings settings.validate
    let state ← get
    let result ← Generation.require .scan (settings.scan state.files)
    settings.record result
    return result) := by
  simp only [generate, record, bind_assoc]

/-- A run succeeds if its settings are valid and what the scan comes to can be recorded. -/
theorem onFiles_generate_eq_ok_iff {tree : FileTree} {ended : RunState} :
    settings.generate.onFiles tree = (.ok result, ended) ↔
      settings.validate = .ok () ∧ settings.scan tree = .ok result ∧
        (settings.record result).run.run ⟨tree, ""⟩ = (.ok (), ended) := by
  rw [Generation.onFiles, generate_eq]
  constructor
  · intro h
    obtain ⟨_, _, hvalid, h⟩ := run_bind_eq_ok_iff.1 h
    obtain ⟨hv, rfl⟩ := Generation.require_eq_ok_iff.1 hvalid
    rw [run_get_bind] at h
    obtain ⟨_, _, hscan, h⟩ := run_bind_eq_ok_iff.1 h
    obtain ⟨hs, rfl⟩ := Generation.require_eq_ok_iff.1 hscan
    obtain ⟨_, _, hr, h⟩ := run_bind_eq_ok_iff.1 h
    cases h
    exact ⟨hv, hs, hr⟩
  · rintro ⟨hv, hs, hr⟩
    refine run_bind_eq_ok_iff.2 ⟨(), ⟨tree, ""⟩, Generation.require_eq_ok_iff.2 ⟨hv, rfl⟩, ?_⟩
    rw [run_get_bind]
    refine run_bind_eq_ok_iff.2 ⟨result, ⟨tree, ""⟩, Generation.require_eq_ok_iff.2 ⟨hs, rfl⟩, ?_⟩
    exact run_bind_eq_ok_iff.2 ⟨(), ended, hr, rfl⟩

end Settings

end SerialManifest

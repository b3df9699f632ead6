import SerialManifest.Program
import SerialManifest.Proofs.RunFootprint

namespace SerialManifest

namespace ScanResult

variable {result : ScanResult}

theorem status_of_kept (h : result.violations = []) : result.status = "succeeded" := by
  simp [status, passed, h]

theorem status_of_broken (h : result.violations ≠ []) : result.status = "failed" := by
  simp [status, passed, h]

end ScanResult

namespace Settings

variable {settings : Settings} {tree files : FileTree} {result : ScanResult} {place : Location}
variable {outcome : Except RunError ScanResult} {ended : RunState}

def brokenBy (settings : Settings) (classpath : Classpath) (tree : FileTree) (candidate : Candidate) :
    List Violation :=
  (Scanner.judged (.ofFacts settings.rules settings.contract (classpath.factsAfresh tree))
    candidate.name).violations

theorem reported_of_scan (h : settings.scan tree = .ok result) :
    result.manifestName = settings.manifestName ∧ ∃ classpath, settings.types tree = .ok classpath ∧
      result.violations = (tree.findings settings.classpath).flatMap (settings.brokenBy classpath tree) := by
  obtain ⟨classpath, ht, hs⟩ := scan_eq_ok_iff.1 h
  obtain ⟨_, _, gathered, rfl, rfl⟩ := Scanner.outcome_eq_ok_iff.1 hs
  exact ⟨rfl, classpath, ht, rfl⟩

/-- No summary is asked for, or there is a file for it to be written into. -/
def SummaryWritable (settings : Settings) (tree : FileTree) : Prop :=
  settings.summaryFile = none ∨ ∃ place, settings.SummaryPlace tree place

theorem summaryWritable_of_summarized (h : settings.summarized result tree = .ok files) :
    settings.SummaryWritable tree := by
  rcases summarized_eq_ok_iff.1 h with ⟨hnone, _⟩ | ⟨place, hplace, _⟩
  · exact .inl hnone
  · exact .inr ⟨place, hplace⟩

theorem not_summaryWritable {path : String} {fault : FileFault} (hfile : settings.summaryFile = some path)
    (hfault : tree.resolveForWriting path = .error fault) : ¬ settings.SummaryWritable tree := by
  intro h
  rcases h with hnone | ⟨place, path', hfile', hplace⟩
  · cases hfile.symm.trans hnone
  · cases hfile.symm.trans hfile'
    cases hfault.symm.trans hplace

/-- A run whose scan finds violations reports just these, in the order in which they were found, and ends with
1, if and only if the summary can be written. Else it reports the summary that it could not write. -/
theorem generate_of_violations (hvalid : settings.validate = .ok ())
    (hscan : settings.scan tree = .ok result) (hbroken : result.violations ≠ []) :
    (((settings.generate.onFiles tree).1 =
          .error (.scan (.violations settings.manifestName result.violations)) ∧
        (Program.outcome (settings.generate.onFiles tree)).exitCode = 1) ↔
      settings.SummaryWritable tree) ∧
    (¬ settings.SummaryWritable tree → ∃ path fault, settings.summaryFile = some path ∧
      tree.resolveForWriting path = .error fault ∧
      (settings.generate.onFiles tree).1 = .error (.output (.write path fault)) ∧
      (Program.outcome (settings.generate.onFiles tree)).exitCode = 2) ∧
    ∃ classpath, settings.types tree = .ok classpath ∧
      result.violations = (tree.findings settings.classpath).flatMap (settings.brokenBy classpath tree) := by
  obtain ⟨hname, hfound⟩ := reported_of_scan hscan
  rw [← and_assoc]
  refine ⟨?_, hfound⟩
  generalize hrun : settings.generate.onFiles tree = after
  obtain ⟨outcome, ended⟩ := after
  cases ends_of_onFiles hrun with
  | refused hrefused => cases hvalid.symm.trans hrefused
  | unscanned _ hunscanned => cases hscan.symm.trans hunscanned
  | unsummarized _ hscan' hsummary =>
    cases hscan.symm.trans hscan'
    obtain ⟨path, fault, hfile, hfault, rfl⟩ := summarized_eq_error_iff.1 hsummary
    have hnot := not_summaryWritable hfile hfault
    refine ⟨⟨fun h => ?_, fun h => absurd h hnot⟩, fun _ => ⟨path, fault, hfile, hfault, rfl, rfl⟩⟩
    cases h.1
  | violated _ hscan' hsummary _ =>
    cases hscan.symm.trans hscan'
    have hwritable := summaryWritable_of_summarized hsummary
    rw [hname]
    exact ⟨⟨fun _ => hwritable, fun _ => ⟨rfl, rfl⟩⟩, fun hnot => absurd hwritable hnot⟩
  | unwritten _ hscan' _ hkept _ =>
    cases hscan.symm.trans hscan'
    exact absurd hkept hbroken
  | written _ hscan' _ hkept _ =>
    exact absurd hkept (Except.ok.inj (hscan.symm.trans hscan') ▸ hbroken)

/-- The sample with other namespaces, with the manifest at a path of its own, and with a summary. -/
def sampleWith (namespaces : List String) (manifestPath summaryFile : String) : Settings :=
  { sample with namespaces, basePath := "", manifestPath, summaryFile := some summaryFile }

theorem violations_of_cyclicTree : ∃ result,
    (sampleWith ["A"] "names" "s.json").scan Classpath.cyclicTree = .ok result ∧ result.violations ≠ [] ∧
    ((sampleWith ["A"] "names" "s.json").generate.onFiles Classpath.cyclicTree).1 =
      .error (.scan (.violations "names" result.violations)) ∧
    (Program.outcome ((sampleWith ["A"] "names" "s.json").generate.onFiles Classpath.cyclicTree)).exitCode =
      1 := by
  have hfound : ((sampleWith ["A"] "names" "s.json").scan Classpath.cyclicTree).toOption.map (·.violations) =
      some [⟨"A", .missingField, "No serialVersionUID field in class: A"⟩] := by
    decide +kernel
  obtain ⟨result, hr, hv⟩ := Option.map_eq_some_iff.1 hfound
  have hscan := Except.toOption_eq_some_iff.1 hr
  have hbroken : result.violations ≠ [] := by
    rw [hv]
    exact List.cons_ne_nil _ _
  have hplace : Classpath.cyclicTree.resolveForWriting "s.json" = .ok ["s.json"] := by
    decide +kernel
  obtain ⟨hreport, _⟩ := generate_of_violations (by decide) hscan hbroken
  obtain ⟨houtcome, hcode⟩ := hreport.2 (.inr ⟨["s.json"], "s.json", rfl, hplace⟩)
  exact ⟨result, hscan, hbroken, houtcome, hcode⟩

/-- A summary that cannot be written hides the violations that were found. -/
theorem violations_hidden_in_cyclicTree :
    let settings := sampleWith ["A"] "names" "missing/s.json"
    settings.validate = .ok () ∧
      (settings.scan Classpath.cyclicTree).toOption.map (·.violations) =
        some [⟨"A", .missingField, "No serialVersionUID field in class: A"⟩] ∧
      (settings.generate.onFiles Classpath.cyclicTree).1 =
        .error (.output (.write "missing/s.json" .notFound)) ∧
      (Program.outcome (settings.generate.onFiles Classpath.cyclicTree)).exitCode = 2 := by
  refine ⟨?_, ?_, ?_, ?_⟩
  · decide
  · decide +kernel
  · decide +kernel
  · decide +kernel

/-- The scan comes to a result, and there is a place for its summary. -/
structure WritesSummary (settings : Settings) (tree : FileTree) (result : ScanResult) (place : Location) :
    Prop where
  valid : settings.validate = .ok ()
  scanned : settings.scan tree = .ok result
  toPlace : settings.SummaryPlace tree place

/-- A run ends as the summary of a result says: well, with the manifest written, or with the violations. -/
def EndsAsTold (settings : Settings) (tree : FileTree) (result : ScanResult)
    (outcome : Except RunError ScanResult) (files : FileTree) : Prop :=
  outcome = .ok result ∧ settings.ManifestWritten tree files result ∧ result.status = "succeeded" ∨
    outcome = .error (.scan (.violations settings.manifestName result.violations)) ∧
      result.status = "failed"

theorem SummaryPlace.unique {place' : Location} (h : settings.SummaryPlace tree place)
    (h' : settings.SummaryPlace tree place') : place = place' := by
  obtain ⟨path, hfile, hplace⟩ := h
  obtain ⟨path', hfile', hplace'⟩ := h'
  cases hfile.symm.trans hfile'
  exact Except.ok.inj (hplace.symm.trans hplace')

theorem node?_of_summarized (hplace : settings.SummaryPlace tree place)
    (h : settings.summarized result tree = .ok files) : files.node? place = some result.summaryNode := by
  rcases summarized_eq_ok_iff.1 h with ⟨hnone, _⟩ | ⟨place', hplace', rfl⟩
  · obtain ⟨path, hfile, _⟩ := hplace
    cases hnone.symm.trans hfile
  · cases hplace.unique hplace'
    exact FileTree.node?_fill_of_oneFile hplace.ne_nil (.refl tree place)

theorem WritesSummary.told (writes : settings.WritesSummary tree result place)
    (h : settings.generate.onFiles tree = (outcome, ended)) :
    (ended.files.resolve settings.manifestFile ≠ .ok place →
      ended.files.node? place = some result.summaryNode) ∧
    (settings.EndsAsTold tree result outcome ended.files ↔ ∀ error, outcome ≠ .error (.output error)) ∧
    (∀ error, outcome = .error (.output error) → result.status = "succeeded") := by
  cases ends_of_onFiles h with
  | refused hrefused => cases writes.valid.symm.trans hrefused
  | unscanned _ hunscanned => cases writes.scanned.symm.trans hunscanned
  | unsummarized _ hscan hsummary =>
    obtain ⟨path, fault, hfile, hfault, _⟩ := summarized_eq_error_iff.1 hsummary
    exact absurd (.inr ⟨place, writes.toPlace⟩) (not_summaryWritable hfile hfault)
  | violated _ hscan hsummary hbroken =>
    cases writes.scanned.symm.trans hscan
    have hstatus := ScanResult.status_of_broken hbroken
    rw [(reported_of_scan hscan).1]
    exact ⟨fun _ => node?_of_summarized writes.toPlace hsummary, ⟨nofun, fun _ => .inr ⟨rfl, hstatus⟩⟩, nofun⟩
  | unwritten _ hscan hsummary hkept hwrite =>
    cases writes.scanned.symm.trans hscan
    have hnode := node?_of_summarized writes.toPlace hsummary
    have hstatus := ScanResult.status_of_kept hkept
    refine ⟨node?_of_writeManifest hwrite hnode, ⟨fun htold => ?_, fun hnone => absurd rfl (hnone _)⟩,
      fun _ _ => hstatus⟩
    rcases htold with ⟨he, _⟩ | ⟨he, _⟩
    · cases he
    · cases he
  | written _ hscan hsummary hkept hwrite =>
    cases writes.scanned.symm.trans hscan
    have hnode := node?_of_summarized writes.toPlace hsummary
    have hwritten := manifestWritten_of_written hsummary hwrite
    have hstatus := ScanResult.status_of_kept hkept
    exact ⟨node?_of_writeManifest hwrite hnode, ⟨nofun, fun _ => .inl ⟨rfl, hwritten, hstatus⟩⟩, nofun⟩

theorem untouched_of_unsummarized {path : String} (hfile : settings.summaryFile = some path)
    (h : settings.generate.onFiles tree = (outcome, ended))
    (hnone : ¬ ∃ result place, settings.WritesSummary tree result place) :
    ended.files = tree ∧ ∃ error, outcome = .error error := by
  have hplaced : ∀ {result files}, settings.validate = .ok () → settings.scan tree = .ok result →
      settings.summarized result tree ≠ .ok files := by
    intro result files hvalid hscan hsummary
    rcases summaryWritable_of_summarized hsummary with hunasked | ⟨place, hplace⟩
    · cases hfile.symm.trans hunasked
    · exact hnone ⟨result, place, hvalid, hscan, hplace⟩
  cases ends_of_onFiles h with
  | refused => exact ⟨rfl, _, rfl⟩
  | unscanned => exact ⟨rfl, _, rfl⟩
  | unsummarized => exact ⟨rfl, _, rfl⟩
  | violated hvalid hscan hsummary _ => exact absurd hsummary (hplaced hvalid hscan)
  | unwritten hvalid hscan hsummary _ _ => exact absurd hsummary (hplaced hvalid hscan)
  | written hvalid hscan hsummary _ _ => exact absurd hsummary (hplaced hvalid hscan)

/-- Once a run has written a summary it ends as the summary says, if and only if it does not fail to write the
manifest; if it does fail, the summary tells of a success all the same. The summary stands at its place
unless this is what the path of the manifest leads to. -/
theorem summary_of_generate {path : String} (hfile : settings.summaryFile = some path)
    (h : settings.generate.onFiles tree = (outcome, ended)) :
    (∀ result place, settings.WritesSummary tree result place →
      (ended.files.resolve settings.manifestFile ≠ .ok place →
        ended.files.node? place = some result.summaryNode) ∧
      (settings.EndsAsTold tree result outcome ended.files ↔ ∀ error, outcome ≠ .error (.output error)) ∧
      (∀ error, outcome = .error (.output error) → result.status = "succeeded")) ∧
    ((¬ ∃ result place, settings.WritesSummary tree result place) →
      ended.files = tree ∧ ∃ error, outcome = .error error) :=
  ⟨fun _ _ writes => writes.told h, untouched_of_unsummarized hfile h⟩

theorem summary_of_cyclicTree : ∃ result ended,
    (sampleWith ["org.", "A"] "names" "s.json").generate.onFiles Classpath.cyclicTree = (.ok result, ended) ∧
      ended.files.node? ["s.json"] = some result.summaryNode ∧ result.status = "succeeded" := by
  generalize hsettings : sampleWith ["org.", "A"] "names" "s.json" = settings
  have hsucceeds : (settings.generate.onFiles Classpath.cyclicTree).1.toOption.isSome = true := by
    subst hsettings
    decide +kernel
  have hother : (settings.generate.onFiles Classpath.cyclicTree).2.files.resolve settings.manifestFile ≠
      .ok ["s.json"] := by
    subst hsettings
    decide +kernel
  have hplace : Classpath.cyclicTree.resolveForWriting "s.json" = .ok ["s.json"] := by
    decide +kernel
  have hfile : settings.summaryFile = some "s.json" := by
    subst hsettings
    rfl
  obtain ⟨result, hr⟩ := Except.isSome_toOption_iff.1 hsucceeds
  generalize hrun : settings.generate.onFiles Classpath.cyclicTree = after at hr hother
  obtain ⟨outcome, ended⟩ := after
  cases hr
  obtain ⟨hvalid, hscan, _⟩ := onFiles_generate_eq_ok_iff.1 hrun
  have writes : settings.WritesSummary Classpath.cyclicTree result ["s.json"] :=
    ⟨hvalid, hscan, "s.json", hfile, hplace⟩
  obtain ⟨hnode, htold, _⟩ := (summary_of_generate hfile hrun).1 result ["s.json"] writes
  rcases htold.2 nofun with ⟨_, _, hstatus⟩ | ⟨he, _⟩
  · exact ⟨result, ended, rfl, hnode hother, hstatus⟩
  · cases he

/-- A summary that tells of a success, left behind by a run that found a directory in the place of the
manifest. -/
theorem untrue_summary_of_cyclicTree :
    let settings := sampleWith ["org.", "A"] "lib" "s.json"
    (settings.generate.onFiles Classpath.cyclicTree).1 = .error (.output (.write "lib" .isADirectory)) ∧
      Classpath.cyclicTree.node? ["s.json"] = none ∧
      ∃ result, settings.scan Classpath.cyclicTree = .ok result ∧ result.status = "succeeded" ∧
        (settings.generate.onFiles Classpath.cyclicTree).2.files.node? ["s.json"] =
          some result.summaryNode := by
  intro settings
  refine ⟨by decide +kernel, by decide +kernel, ?_⟩
  have hstatus : (settings.scan Classpath.cyclicTree).toOption.map (·.status) = some "succeeded" := by
    decide +kernel
  have hplace : Classpath.cyclicTree.resolveForWriting "s.json" = .ok ["s.json"] := by
    decide +kernel
  have hother : (settings.generate.onFiles Classpath.cyclicTree).2.files.resolve settings.manifestFile ≠
      .ok ["s.json"] := by
    decide +kernel
  obtain ⟨result, hr, hs⟩ := Option.map_eq_some_iff.1 hstatus
  have hscan := Except.toOption_eq_some_iff.1 hr
  have writes : settings.WritesSummary Classpath.cyclicTree result ["s.json"] :=
    ⟨by decide, hscan, "s.json", rfl, hplace⟩
  generalize hrun : settings.generate.onFiles Classpath.cyclicTree = after at hother
  obtain ⟨outcome, ended⟩ := after
  exact ⟨result, hscan, hs, (writes.told hrun).1 hother⟩

end Settings

end SerialManifest

import SerialManifest.Proofs.RepeatedWrite
import SerialManifest.Proofs.RunFootprint
import SerialManifest.Proofs.RunReports
import SerialManifest.Proofs.ScanFailures
import SerialManifest.Proofs.SparedDefinitions

namespace SerialManifest

def Origin.path : Origin → String
  | .file path => path
  | .entry archive _ => archive

/-- Trees on one disk that hold the same at every place, and of which the same files go by several names. -/
structure FileTree.SameFiles (first second : FileTree) : Prop extends SameContents first second where
  disk : first.disk = second.disk
  oneFile : ∀ place other, first.OneFile place other ↔ second.OneFile place other

theorem FileTree.SameFiles.refl (tree : FileTree) : tree.SameFiles tree :=
  ⟨⟨rfl, fun _ => rfl⟩, rfl, fun _ _ => .rfl⟩

namespace Settings

variable {settings : Settings} {tree files later again : FileTree} {result : ScanResult}

/-- Where the outputs of a run come to stand: the summary in the tree that the run starts from, under all names
of the file into which it is written, the manifest in the tree in which all directories on the way to it have been
created. -/
def OutputPlace (settings : Settings) (result : ScanResult) (tree : FileTree) (place : Location) : Prop :=
  (∃ path first, settings.summaryFile = some path ∧ tree.Names path first ∧ tree.OneFile first place) ∨
    ∃ files ready, settings.summarized result tree = .ok files ∧
      (FileTree.createDirectories (Manifest.directoryOf settings.manifestFile)).run.run files = (.ok (), ready) ∧
      ready.Names settings.manifestFile place

/-- The outputs are called neither as definitions nor as archives are, under none of their names. No link stands
where an output comes to stand, and none leads there. -/
structure OutputsApart (settings : Settings) (result : ScanResult) (tree : FileTree) : Prop where
  manifest : Path.isInput settings.manifestFile = false
  summary : ∀ path, settings.summaryFile = some path → Path.isInput path = false
  shared : ∀ path first name outer, settings.summaryFile = some path → tree.Names path first →
    tree.OneFile first (name :: outer) → first ≠ name :: outer → Path.isInput name = false
  unlinked : ∀ place, settings.OutputPlace result tree place →
    ∀ target, tree.node? place ≠ some (.link target)
  untargeted : ∀ outer name target, tree.node? (name :: outer) = some (.link target) →
    ∀ there, tree.onward (.fresh outer) [.child name] = .ok there →
      ¬ settings.OutputPlace result tree there.place

theorem OutputsApart.apart (apart : settings.OutputsApart result tree) (wellFormed : tree.WellFormed) :
    tree.Apart (settings.OutputPlace result tree) where
  unlinked := apart.untargeted
  named := by
    have hnames : ∀ {files : FileTree} {path : String} {place : Location}, files.Names path place →
        Path.isInput path = false → ∃ name outer, place = name :: outer ∧ Path.ProperName name ∧
          Path.isInput name = false := by
      rintro files path _ ⟨here, name, hslot, rfl⟩ hi
      obtain ⟨hr, lead, hs, _⟩ := FileTree.slot_eq_ok_iff.1 hslot
      obtain ⟨proper, hname⟩ := Path.properName_of_steps hr hs
      exact ⟨name, here.place, rfl, proper, hname.trans hi⟩
    rintro place (⟨path, first, hp, named, hone⟩ | ⟨_, _, _, _, named⟩)
    · by_cases hfirst : first = place
      · subst hfirst
        exact hnames named (apart.summary path hp)
      · obtain ⟨name, outer, rfl⟩ := List.exists_cons_of_ne_nil (hone.ne_nil hfirst)
        obtain ⟨content, hfile⟩ := hone.exists_file hfirst
        exact ⟨name, outer, rfl, wellFormed.properName_of_node? hfile,
          apart.shared path first name outer hp named hone hfirst⟩
    · exact hnames named apart.manifest

def manifestBytes (settings : Settings) (result : ScanResult) : List UInt8 :=
  Text.Utf8.encode (Manifest.render settings.header result.manifest)

def manifestNode (settings : Settings) (result : ScanResult) : Node :=
  .file (.bytes (settings.manifestBytes result))

theorem run_writeManifest_eq_ok_iff : (settings.writeManifest result).run.run files = (.ok (), later) ↔
    ∃ ready, (FileTree.createDirectories (Manifest.directoryOf settings.manifestFile)).run.run files =
        (.ok (), ready) ∧
      ∃ place, ready.wholePlace (Manifest.directoryOf settings.manifestFile) settings.manifestFile
        (settings.manifestBytes result) = .ok place ∧ later = ready.put place (settings.manifestNode result) := by
  unfold writeManifest Manifest.write
  simp only [run_bind_eq_ok_iff, FileAction.orFail, run_adapt_eq_ok_iff]
  constructor
  · rintro ⟨_, ready, hcreate, hwrite⟩
    exact ⟨ready, hcreate, FileTree.run_writeWhole_eq_ok_iff.1 hwrite⟩
  · rintro ⟨ready, hcreate, hwrite⟩
    exact ⟨(), ready, hcreate, FileTree.run_writeWhole_eq_ok_iff.2 hwrite⟩

/-- The steps in which a run writes its outputs: the summary, the directories on the way to the manifest, and
the manifest. -/
structure Writes (settings : Settings) (result : ScanResult) (files ready later : FileTree)
    (place : Location) : Prop where
  directories : (FileTree.createDirectories (Manifest.directoryOf settings.manifestFile)).run.run files =
    (.ok (), ready)
  whole : ready.wholePlace (Manifest.directoryOf settings.manifestFile) settings.manifestFile
    (settings.manifestBytes result) = .ok place
  put : later = ready.put place (settings.manifestNode result)

theorem writes_of_writeManifest (h : (settings.writeManifest result).run.run files = (.ok (), later)) :
    ∃ ready place, settings.Writes result files ready later place := by
  obtain ⟨ready, hcreate, place, hwhole, hlater⟩ := run_writeManifest_eq_ok_iff.1 h
  exact ⟨ready, place, hcreate, hwhole, hlater⟩

theorem Writes.slot {ready : FileTree} {place : Location} (writes : settings.Writes result files ready later place) :
    ∃ here name, ready.slot settings.manifestFile = .ok ⟨here, some name, false⟩ ∧
      ready.isDirectory place = false ∧ place = name :: here.place :=
  FileTree.placeToReplace_eq_ok_iff.1 (FileTree.wholePlace_eq_ok_iff.1 writes.whole).1

theorem Writes.ne_nil {ready : FileTree} {place : Location} (writes : settings.Writes result files ready later place) :
    place ≠ [] := by
  obtain ⟨here, name, _, _, rfl⟩ := writes.slot
  exact List.cons_ne_nil name here.place

section First

variable (wellFormed : tree.WellFormed) (apart : settings.OutputsApart result tree)
include wellFormed apart

theorem OutputsApart.summary_eq {place : Location} (h : settings.SummaryPlace tree place) :
    ∃ path here name, settings.summaryFile = some path ∧ tree.slot path = .ok ⟨here, some name, false⟩ ∧
      place = name :: here.place ∧ (∀ other, tree.OneFile place other → settings.OutputPlace result tree other) ∧
      ∀ node, tree.node? place = some node → ∃ content, node = .file content := by
  obtain ⟨path, hp, hplace⟩ := h
  obtain ⟨here, name, hslot, hnot⟩ := wellFormed.names_of_resolveForWriting hplace
  have houtput : ∀ other, tree.OneFile (name :: here.place) other → settings.OutputPlace result tree other :=
    fun other hone => .inl ⟨path, name :: here.place, hp, ⟨here, name, hslot, rfl⟩, hone⟩
  have hlink := apart.unlinked _ (houtput _ (.refl tree _))
  cases hnot hlink
  have hd := FileTree.not_isDirectory_of_refusal? (FileTree.refusal?_of_resolveForWriting hplace)
  exact ⟨path, here, name, hp, hslot, rfl, houtput, fun node hn => FileTree.exists_file_of_not hd hlink hn⟩

theorem OutputsApart.supplemented_summary (h : settings.summarized result tree = .ok files) :
    FileTree.Supplemented (settings.OutputPlace result tree) tree files := by
  rcases summarized_eq_ok_iff.1 h with ⟨_, rfl⟩ | ⟨place, hplace, rfl⟩
  · exact .of_sameContents ⟨rfl, fun _ => rfl⟩
  · obtain ⟨path, here, name, _, hslot, rfl, houtput, hfile⟩ := apart.summary_eq wellFormed hplace
    obtain ⟨_, _, _, _, hd, hl⟩ := FileTree.slot_eq_ok_iff.1 hslot
    exact .fill houtput hd hl hfile

theorem OutputsApart.supplemented_manifest {ready : FileTree} {place : Location}
    (h : settings.summarized result tree = .ok files) (writes : settings.Writes result files ready later place) :
    FileTree.Supplemented (settings.OutputPlace result tree) tree ready ∧
      FileTree.Supplemented (settings.OutputPlace result tree) ready later := by
  have hgrown := FileTree.createDirectories_grown files (Manifest.directoryOf settings.manifestFile)
  rw [writes.directories] at hgrown
  have hready := (apart.supplemented_summary wellFormed h).trans (.of_grown hgrown)
  refine ⟨hready, ?_⟩
  obtain ⟨here, name, hslot, hnot, rfl⟩ := writes.slot
  obtain ⟨_, _, _, _, hd, hl⟩ := FileTree.slot_eq_ok_iff.1 hslot
  have houtput : settings.OutputPlace result tree (name :: here.place) :=
    .inr ⟨files, ready, h, writes.directories, here, name, hslot, rfl⟩
  have hlink := hready.not_link (apart.unlinked _ houtput)
  rw [writes.put]
  exact .put houtput hd hl fun node hn => FileTree.exists_file_of_not (by simp [hnot]) hlink hn

end First

section Second

variable (wellFormed : tree.WellFormed) (apart : settings.OutputsApart result tree)
variable {ready : FileTree} {place : Location} (hsummary : settings.summarized result tree = .ok files)
variable (writes : settings.Writes result files ready later place)
include wellFormed apart hsummary writes

theorem OutputsApart.supplemented (same : later.SameContents again) :
    FileTree.Supplemented (settings.OutputPlace result tree) tree again := by
  obtain ⟨hready, hlater⟩ := apart.supplemented_manifest wellFormed hsummary writes
  exact hready.trans (hlater.trans (.of_sameContents same))

theorem OutputsApart.node?_summary {other : Location} (h : settings.SummaryPlace tree other)
    (hne : other ≠ place) : later.node? other = some result.summaryNode := by
  obtain ⟨_, here, name, _, _, rfl, _, _⟩ := apart.summary_eq wellFormed h
  have hgrown := FileTree.createDirectories_grown files (Manifest.directoryOf settings.manifestFile)
  rw [writes.directories] at hgrown
  rw [writes.put, FileTree.node?_put_other ready hne]
  exact hgrown.node? (node?_of_summarized h hsummary)

theorem OutputsApart.exists_bytes {other : Location} (h : settings.SummaryPlace tree other) :
    ∃ data, later.node? other = some (.file (.bytes data)) := by
  by_cases hne : other = place
  · rw [writes.put, hne, FileTree.node?_put_self ready writes.ne_nil]
    exact ⟨_, rfl⟩
  · exact ⟨_, apart.node?_summary wellFormed hsummary writes h hne⟩

variable (same : later.SameFiles again)
include same

/-- Where the summary is written again it is already, but for the place of the manifest. -/
theorem OutputsApart.node?_oneFile {first other : Location} (h : settings.SummaryPlace tree first)
    (hone : again.OneFile first other) (hne : other ≠ place) : again.node? other = some result.summaryNode := by
  have hfirst : first ≠ place := by
    rintro rfl
    have hput := (same.oneFile first other).2 hone
    rw [writes.put] at hput
    exact hne (FileTree.eq_of_oneFile_put hput).symm
  have hnode := apart.node?_summary wellFormed hsummary writes h hfirst
  rw [same.nodes] at hnode
  rcases hone with rfl | ⟨_, content, _, _, hf, ho⟩
  · exact hnode
  · rw [ho, ← hf, hnode]

/-- The summary is written again where it is. -/
theorem OutputsApart.summarized_again : ∃ files', settings.summarized result again = .ok files' ∧
    FileTree.Supplemented (fun _ => True) again files' ∧ files'.disk = again.disk ∧
    ∀ other, other ≠ place → files'.node? other = again.node? other := by
  have supplemented := apart.supplemented wellFormed hsummary writes same.toSameContents
  rcases summarized_eq_ok_iff.1 hsummary with ⟨hnone, _⟩ | ⟨first, hplace, _⟩
  · refine ⟨again, summarized_eq_ok_iff.2 (.inl ⟨hnone, rfl⟩), .of_sameContents ⟨rfl, fun _ => rfl⟩, rfl, ?_⟩
    exact fun _ _ => rfl
  · obtain ⟨data, hlater⟩ := apart.exists_bytes wellFormed hsummary writes hplace
    rw [same.nodes] at hlater
    obtain ⟨path, here, name, hp, hslot, rfl, _, _⟩ := apart.summary_eq wellFormed hplace
    have hslot' := supplemented.slot hslot
    obtain ⟨_, _, _, _, hd, hl⟩ := FileTree.slot_eq_ok_iff.1 hslot'
    have hnot : ∀ target, again.node? (name :: here.place) ≠ some (.link target) := by
      rw [hlater]
      simp
    have hplace' := FileTree.resolveForWriting_of_slot hslot' hnot (FileTree.refusal?_of_bytes hlater)
    refine ⟨_, summarized_eq_ok_iff.2 (.inr ⟨_, ⟨path, hp, hplace'⟩, rfl⟩), ?_, FileTree.disk_fill _ _ _, ?_⟩
    · exact .fill (fun _ _ => trivial) hd hl fun node hn => ⟨_, Option.some.inj (hn.symm.trans hlater)⟩
    · intro other hne
      by_cases hone : again.OneFile (name :: here.place) other
      · rw [apart.node?_oneFile wellFormed hsummary writes same hplace hone hne]
        exact FileTree.node?_fill_of_oneFile (List.cons_ne_nil _ _) hone
      · exact FileTree.node?_fill_of_not (List.cons_ne_nil _ _) hone

theorem OutputsApart.written_again {files' : FileTree}
    (supplemented : FileTree.Supplemented (fun _ => True) again files') (hdisk : files'.disk = again.disk)
    (hnodes : ∀ other, other ≠ place → files'.node? other = again.node? other) :
    (settings.writeManifest result).run.run files' = (.ok (), files'.put place (settings.manifestNode result)) := by
  obtain ⟨_, hlater⟩ := apart.supplemented_manifest wellFormed hsummary writes
  have hlater := hlater.mono fun _ _ => trivial
  have hfiles := hlater.trans ((FileTree.Supplemented.of_sameContents same.toSameContents).trans supplemented)
  have hdirectories := (FileTree.hasDirectories_of_createDirectories writes.directories).supplemented hfiles
  obtain ⟨here, name, hslot, _, hplace⟩ := writes.slot
  have hfile : ∃ content, again.node? place = some (.file content) := by
    rw [← same.nodes, writes.put, FileTree.node?_put_self ready writes.ne_nil]
    exact ⟨_, rfl⟩
  obtain ⟨content, hn⟩ := supplemented.file hfile
  have hd : ¬ files'.isDirectory place = true := by
    rw [FileTree.isDirectory, hn]
    simp
  have hready : files'.disk = ready.disk := by
    rw [hdisk, ← same.disk, writes.put, FileTree.disk_put]
  have hold : ∀ other, other ≠ place → (files'.node? other).isSome = (ready.node? other).isSome := by
    intro other hne
    rw [hnodes other hne, ← same.nodes, writes.put, FileTree.node?_put_other ready hne]
  have hreplace : files'.placeToReplace settings.manifestFile = .ok place := by
    subst hplace
    exact FileTree.placeToReplace_of_slot (hfiles.slot hslot) hd
  exact run_writeManifest_eq_ok_iff.2 ⟨files', hdirectories.createDirectories, place,
    hfiles.wholePlace hready hreplace hold writes.whole, rfl⟩

omit wellFormed apart hsummary in
theorem Writes.sameContents_again {files' : FileTree}
    (hnodes : ∀ other, other ≠ place → files'.node? other = again.node? other)
    (hcurrent : files'.current = again.current) :
    again.SameContents (files'.put place (settings.manifestNode result)) := by
  refine ⟨by rw [FileTree.current_put, hcurrent], fun other => ?_⟩
  by_cases ho : other = place
  · rw [ho, FileTree.node?_put_self files' writes.ne_nil, ← same.nodes, writes.put,
      FileTree.node?_put_self ready writes.ne_nil]
  · rw [FileTree.node?_put_other files' ho, hnodes other ho]

end Second

section Scan

variable {outputs : Location → Prop}

theorem exists_candidate_of_types {classpath : Classpath} (h : settings.types tree = .ok classpath)
    {type : String} {origin : Origin} (ho : classpath.index.origin? type = some origin) :
    ∃ root ∈ settings.classpath, ∃ candidate ∈ (tree.walk root).found, candidate.origin = origin := by
  obtain ⟨_, rfl⟩ := types_eq_ok_iff.1 h
  have hfirst : Candidate.firstNamed? (tree.findings settings.classpath) type = some origin :=
    (TypeIndex.origin?_insertAll .empty (tree.findings settings.classpath) type).symm.trans ho
  obtain ⟨candidate, hf, rfl⟩ := Option.map_eq_some_iff.1 hfirst
  obtain ⟨root, hr, hm⟩ := List.mem_flatMap.1 (List.mem_of_find?_eq_some hf)
  exact ⟨root, hr, candidate, hm, rfl⟩

theorem isInput_of_mem_walk {root : String} {candidate : Candidate} (h : candidate ∈ (tree.walk root).found) :
    Path.isInput candidate.origin.path = true := by
  rcases FileTree.mem_found_walkFrom h with ⟨place, ha, hc⟩ | ⟨place, hc⟩
  · obtain ⟨_, name, _, _, ho⟩ := FileTree.mem_found_walkArchive hc
    rw [ho, Origin.path, Path.isInput, ha, Bool.or_true]
  · have hn : Candidate.isDefinitionName place = true := by
      by_contra hn
      rw [FileTree.walkFile, if_neg hn] at hc
      cases hc
    rw [FileTree.mem_found_walkFile hc, Origin.path, Path.isInput, hn, Bool.true_or]

theorem definitionBytes_again (supplemented : FileTree.Supplemented outputs tree again)
    (apart : tree.Apart outputs) {origin : Origin} (hi : Path.isInput origin.path = true)
    (locates : tree.Locates origin) : again.definitionBytes origin = tree.definitionBytes origin := by
  cases origin with
  | file path =>
    have hi : Path.isInput path = true := hi
    obtain ⟨content, leads⟩ := locates
    rw [FileTree.definitionBytes, FileTree.definitionBytes, leads.readBytes,
      (supplemented.leadsToFile apart hi leads).readBytes]
  | entry path name =>
    have hi : Path.isInput path = true := hi
    obtain ⟨archive, hopen, _⟩ := locates
    rw [FileTree.definitionBytes, FileTree.definitionBytes, hopen, supplemented.openArchive apart hi hopen]

/-- A scan comes to the same if all paths to what is new can be looked up. -/
theorem scan_again (supplemented : FileTree.Supplemented outputs tree again) (wellFormed : tree.WellFormed)
    (apart : tree.Apart outputs) (order : tree.KeepsOrder again)
    (fits : ∀ root ∈ settings.classpath, tree.NewFits again root) (h : settings.scan tree = .ok result) :
    settings.scan again = .ok result := by
  obtain ⟨classpath, ht, hs⟩ := scan_eq_ok_iff.1 h
  obtain ⟨hwalks, hclasspath⟩ := types_eq_ok_iff.1 ht
  have hwalk : ∀ root ∈ settings.classpath, again.walk root = tree.walk root := fun root hm =>
    (supplemented.walk_iff wellFormed apart order (hwalks root hm)).2 (fits root hm)
  have hwalks' : ∀ root ∈ settings.classpath, (again.walk root).failure = none := fun root hm =>
    (hwalk root hm).symm ▸ hwalks root hm
  have hfindings : again.findings settings.classpath = tree.findings settings.classpath :=
    List.flatMap_congr fun root hm => congrArg Walk.found (hwalk root hm)
  have hspares : ∀ name, classpath.Spares again tree name := by
    intro name type _ origin ho
    obtain ⟨root, _, candidate, hm, rfl⟩ := exists_candidate_of_types ht ho
    exact definitionBytes_again supplemented apart (isInput_of_mem_walk hm) (wellFormed.locates_of_mem_walk hm)
  refine scan_eq_ok_iff.2 ⟨classpath, types_eq_ok_iff.2 ⟨hwalks', by rw [hfindings]; exact hclasspath⟩, ?_⟩
  rw [Scanner.outcome_congr hwalks' fun candidate _ =>
      (hspares candidate.name).judge settings.rules settings.contract, Scanner.outcome,
    Scanner.foldlM_examinedRoot_of_walks hwalks', hfindings, ← Scanner.foldlM_examinedRoot_of_walks hwalks,
    ← Scanner.outcome]
  exact hs

theorem run_record_ok (hkept : result.violations = []) (hsummary : settings.summarized result tree = .ok files)
    (hwrite : (settings.writeManifest result).run.run files = (.ok (), later)) :
    ∃ printed, (settings.record result).run.run ⟨tree, ""⟩ = (.ok (), ⟨later, printed⟩) := by
  obtain ⟨printed, hannounce⟩ := settings.run_announce result ⟨files, ""⟩
  have hsummarize : (settings.summarize result).run.run ⟨tree, ""⟩ = (.ok (), ⟨files, ""⟩) :=
    run_summarize_ok hsummary
  have hinto := ScanResult.intoManifest_eq_ok_iff.2 ⟨hkept, rfl⟩
  refine ⟨printed, ?_⟩
  unfold record
  rw [run_bind_of_ok hsummarize, run_bind_of_ok hannounce,
    run_bind_of_ok (Generation.require_eq_ok_iff.2 ⟨hinto, rfl⟩), Generation.run_put]
  rw [show (Manifest.write _ _ _).run.run files = (.ok (), later) from hwrite]
  rfl

/-- A scan of a tree below one of whose roots a path is too long fails, and for no other reason. -/
theorem types_again (supplemented : FileTree.Supplemented outputs tree again) (wellFormed : tree.WellFormed)
    (apart : tree.Apart outputs) (hwalks : ∀ root ∈ settings.classpath, (tree.walk root).failure = none)
    (hlong : ¬ ∀ root ∈ settings.classpath, tree.NewFits again root) :
    ∃ path, settings.types again = .error (.unreadable path .nameTooLong) := by
  cases ht : settings.types again with
  | error error =>
    have hroots : Classpath.ofRoots again settings.classpath = .error error := by
      unfold types at ht
      cases hroots : Classpath.ofRoots again settings.classpath with
      | error first =>
        rw [hroots] at ht
        exact congrArg Except.error (Except.error.inj ht)
      | ok classpath =>
        rw [hroots] at ht
        cases ht
    obtain ⟨root, hm, hf⟩ := Classpath.exists_failure_of_addRoots hroots
    obtain ⟨path, rfl⟩ := supplemented.failure_eq wellFormed apart (hwalks root hm) hf
    exact ⟨path, rfl⟩
  | ok classpath =>
    have hwalks' := (types_eq_ok_iff.1 ht).1
    exact absurd (fun root hm => supplemented.newFits wellFormed (hwalks' root hm) (hwalks root hm)) hlong

end Scan

/-- Running twice changes nothing, unless a path to what is new is too long to be looked up; then the second run
fails for that. -/
theorem generate_again (wellFormed : tree.WellFormed) {ended : RunState}
    (h : settings.generate.onFiles tree = (.ok result, ended)) (apart : settings.OutputsApart result tree)
    (same : ended.files.SameFiles again) (order : tree.KeepsOrder again) :
    ((∀ root ∈ settings.classpath, tree.NewFits again root) →
      ∃ ended', settings.generate.onFiles again = (.ok result, ended') ∧ again.SameContents ended'.files) ∧
    ((¬ ∀ root ∈ settings.classpath, tree.NewFits again root) →
      ∃ path ended', settings.generate.onFiles again =
        (.error (.scan (.walk (.unreadable path .nameTooLong))), ended') ∧ ended'.files = again) := by
  generalize hfiles : ended.files = later at same
  have hends := ends_of_onFiles h
  rw [hfiles] at hends
  cases hends with
  | @written _ files _ hvalid hscan hsummary hkept hwrite =>
    obtain ⟨ready, place, writes⟩ := writes_of_writeManifest hwrite
    have supplemented := apart.supplemented wellFormed hsummary writes same.toSameContents
    constructor
    · intro fits
      have hscan' := scan_again supplemented wellFormed (apart.apart wellFormed) order fits hscan
      obtain ⟨files', hsummary', hfiles', hdisk, hnodes⟩ :=
        apart.summarized_again wellFormed hsummary writes same
      have hwrite' := apart.written_again wellFormed hsummary writes same hfiles' hdisk hnodes
      obtain ⟨printed, hrecord⟩ := run_record_ok hkept hsummary' hwrite'
      refine ⟨_, onFiles_generate_eq_ok_iff.2 ⟨hvalid, hscan', hrecord⟩, ?_⟩
      exact writes.sameContents_again same hnodes hfiles'.current
    · intro hlong
      obtain ⟨classpath, ht, _⟩ := scan_eq_ok_iff.1 hscan
      obtain ⟨path, herror⟩ :=
        types_again supplemented wellFormed (apart.apart wellFormed) (types_eq_ok_iff.1 ht).1 hlong
      have hscan' : settings.scan again = .error (.walk (.unreadable path .nameTooLong)) := by rw [scan, herror]
      refine ⟨path, ⟨again, ""⟩, ?_, rfl⟩
      rw [Generation.onFiles, generate_eq, run_bind_of_ok (Generation.require_eq_ok_iff.2 ⟨hvalid, rfl⟩),
        run_get_bind, run_bind_of_error (Generation.run_require_error .scan hscan' _)]

/-- Where there are no links and every file goes by one name, outputs need only be called apart. -/
theorem OutputsApart.of_linkless (hmanifest : Path.isInput settings.manifestFile = false)
    (hsummary : ∀ path, settings.summaryFile = some path → Path.isInput path = false)
    (hlinks : ∀ entry ∈ tree.entries, entry.node.target? = none)
    (hshared : ∀ entry ∈ tree.entries, entry.shared = none) : settings.OutputsApart result tree := by
  have hnot := FileTree.not_link_of_entries hlinks
  refine ⟨hmanifest, hsummary, ?_, fun place _ => hnot place, fun _ _ target hn => absurd hn (hnot _ target)⟩
  intro path first name outer _ _ hone hne
  exact absurd (FileTree.eq_of_oneFile hshared hone) hne

/-- The manifest comes to stand in a new directory that is called as archives are, next to a definition and to
the summary. -/
def beside : Settings :=
  { sample with basePath := "lib/out.jar", summaryFile := some "lib/summary" }

theorem generate_again_of_cyclicTree : ∃ result ended ended',
    beside.generate.onFiles Classpath.cyclicTree = (.ok result, ended) ∧
      ended.files.children ["lib"] = ["A.class", "B.class", "summary", "out.jar"] ∧
      beside.generate.onFiles ended.files = (.ok result, ended') ∧ ended.files.SameContents ended'.files := by
  have wellFormed : Classpath.cyclicTree.WellFormed := ⟨by decide +kernel, by decide +kernel⟩
  have hruns : let first := beside.generate.onFiles Classpath.cyclicTree
      first.1.toOption.isSome = true ∧
        first.2.files.children ["lib"] = ["A.class", "B.class", "summary", "out.jar"] ∧
        (first.2.files.entries.map Entry.place).filter (fun place => (Classpath.cyclicTree.node? place).isSome) =
          Classpath.cyclicTree.entries.map Entry.place ∧
        (beside.generate.onFiles first.2.files).1.toOption.isSome = true := by decide +kernel
  generalize hrun : beside.generate.onFiles Classpath.cyclicTree = first at hruns
  obtain ⟨hfirst, hshown, horder, hsecond⟩ := hruns
  obtain ⟨result, hr⟩ := Except.isSome_toOption_iff.1 hfirst
  obtain ⟨outcome, ended⟩ := first
  cases hr
  have apart : beside.OutputsApart result Classpath.cyclicTree :=
    .of_linkless (by decide +kernel) (by decide +kernel) (by decide +kernel) (by decide +kernel)
  obtain ⟨hfits, hlong⟩ := generate_again wellFormed hrun apart (.refl _)
    (FileTree.keepsOrder_of_places horder)
  by_cases fits : ∀ root ∈ beside.classpath, Classpath.cyclicTree.NewFits ended.files root
  · obtain ⟨ended', hagain, hsame⟩ := hfits fits
    exact ⟨result, ended, ended', rfl, hshown, hagain, hsame⟩
  · obtain ⟨error, ended', hagain, _⟩ := hlong fits
    rw [hagain] at hsecond
    cases hsecond

end Settings

theorem Text.split_replicate (sep : Char) (count : Nat) :
    split sep (List.replicate count sep) = List.replicate (count + 1) [] := by
  induction count with
  | zero => rfl
  | succ count ih => simp [List.replicate_succ, split, ih]

namespace Path

/-- A name with slashes after it, which make the path longer and lead nowhere else. -/
def slashed (name : String) (slashes : Nat) : String :=
  name ++ String.ofList (List.replicate slashes '/')

variable {name : String}

theorem toList_slashed (name : String) (slashes : Nat) :
    (slashed name slashes).toList = name.toList ++ List.replicate slashes '/' := by
  rw [slashed, String.toList_append, String.toList_ofList]

theorem utf8ByteSize_slashed (name : String) (slashes : Nat) :
    (slashed name slashes).utf8ByteSize = name.utf8ByteSize + slashes := by
  have hslashes : String.utf8Len (List.replicate slashes '/') = slashes := by
    induction slashes with
    | zero => rfl
    | succ slashes ih => rw [List.replicate_succ, String.utf8Len_cons, ih]; rfl
  rw [slashed, String.utf8ByteSize_append, String.utf8ByteSize_ofList, hslashes]

theorem ofText_slashed (proper : ProperName name) (slashes : Nat) :
    Route.ofText (slashed name (slashes + 1)) = ⟨false, [.child name, .closing]⟩ := by
  have hne : name.toList ≠ [] := fun he => proper.nonempty (String.toList_eq_nil_iff.1 he)
  have habsolute : isAbsolute (slashed name (slashes + 1)) = false := by
    rw [← proper.not_isAbsolute, isAbsolute, isAbsolute, toList_slashed, List.head?_append_of_ne_nil _ hne]
  have hsplit : Text.split '/' (slashed name (slashes + 1)).toList =
      name.toList :: List.replicate (slashes + 1) [] := by
    rw [toList_slashed, List.replicate_succ, Text.split_append_cons proper.noSlash, Text.split_replicate]
  simp [Route.ofText, habsolute, hsplit, hne, proper.ofSegment, List.getLast?_cons, List.getLast?_replicate]

theorem le_utf8ByteSize_join (path : String) (proper : ProperName name) :
    path.utf8ByteSize + name.utf8ByteSize ≤ (join path name).utf8ByteSize := by
  by_cases hp : path = ""
  · simp [hp, join]
  · rw [join_eq proper hp]
    split <;> simp [String.utf8ByteSize_append]

end Path

namespace FileTree

variable {tree : FileTree} {name : String}

theorem reach_slashed (proper : Path.ProperName name) (slashes : Nat)
    (hlong : name.utf8ByteSize + (slashes + 1) ≤ longestPath) (hname : ¬ longestName < name.utf8ByteSize)
    (hc : tree.isDirectory tree.current = true) (hd : tree.isDirectory (name :: tree.current) = true) :
    tree.reach (Path.slashed name (slashes + 1)) = .ok ((Standing.fresh tree.current).child name) := by
  have hroute : FileTree.route (Path.slashed name (slashes + 1)) =
      .ok (Route.ofText (Path.slashed name (slashes + 1))) := by
    refine route_eq_ok_iff.2 ⟨?_, ?_, fun he => ?_, rfl⟩
    · rw [Path.toList_slashed]
      simp [proper.noNul]
    · rw [Path.utf8ByteSize_slashed]
      omega
    · have hsize := Path.utf8ByteSize_slashed name (slashes + 1)
      rw [he, String.utf8ByteSize_empty] at hsize
      omega
  rw [reach_eq hroute, Path.ofText_slashed proper]
  change tree.onward (Standing.fresh tree.current) ([.child name] ++ [.closing]) = _
  have hn : tree.node? (name :: tree.current) = some .directory := beq_iff_eq.1 hd
  have hchild : tree.onward (.fresh tree.current) [.child name] = .ok ((Standing.fresh tree.current).child name) :=
    onward_child hc hname hn (by simp)
  rw [onward_append, hchild]
  exact (onward_nameless_eq_ok_iff (by simp)).2 ⟨hd, rfl⟩

variable {root : String} {here : Standing}

/-- A walk fails if a path from its root to something in it is too long. -/
theorem failure_of_long (hr : tree.reach root = .ok here) (hd : tree.isDirectory here.place = true)
    (hs : here.spelt = true) {others : List String} (hshown : tree.children here.place = name :: others)
    (hlong : longestPath < (Path.join root name).utf8ByteSize) :
    (tree.walk root).failure = some (.unreadable (Path.join root name) .nameTooLong) := by
  have hchild : tree.reachChild here (Path.join root name) name = .error .nameTooLong := by
    rw [reachChild, if_pos hlong]
  have hwalk : tree.walkChild root root here [] name = .failed (.unreadable (Path.join root name) .nameTooLong) := by
    rw [walkChild, hchild, walkFrom.eq_2 _ _ _ _ _ (by simp)]
  rw [walk, hr, walkFrom_of_directory hd hs (by simp [Entry.anyAt]), hshown,
    Walk.each_cons_of_failure (by rw [hwalk]; rfl), hwalk]
  rfl

theorem walk_of_empty (hr : tree.reach root = .ok here) (hd : tree.isDirectory here.place = true)
    (hs : here.spelt = true) (hshown : tree.children here.place = []) : tree.walk root = .of [] := by
  rw [walk, hr, walkFrom_of_directory hd hs (by simp [Entry.anyAt]), hshown, Walk.each_nil]

end FileTree

namespace Settings

variable {settings : Settings} {tree : FileTree} {result : ScanResult}

theorem scan_of_walks {roots : List String} (hw : roots.map tree.walk = settings.classpath.map tree.walk)
    (h : settings.scan tree = .ok result) : { settings with classpath := roots }.scan tree = .ok result := by
  obtain ⟨classpath, ht, hs⟩ := scan_eq_ok_iff.1 h
  obtain ⟨hwalks, hclasspath⟩ := types_eq_ok_iff.1 ht
  have hwalks' : ∀ root ∈ roots, (tree.walk root).failure = none := by
    intro root hm
    obtain ⟨other, ho, he⟩ := List.mem_map.1 (hw ▸ List.mem_map_of_mem hm)
    exact he ▸ hwalks other ho
  have hfound : ∀ roots, tree.findings roots = (roots.map tree.walk).flatMap Walk.found :=
    fun roots => (List.flatMap_map _ _ roots).symm
  have hfindings : tree.findings roots = tree.findings settings.classpath := by rw [hfound, hfound, hw]
  have hlength : roots.length = settings.classpath.length := by
    simpa using congrArg List.length hw
  refine scan_eq_ok_iff.2 ⟨classpath, types_eq_ok_iff.2 ⟨hwalks', hfindings ▸ hclasspath⟩, ?_⟩
  rw [Scanner.outcome, Scanner.foldlM_examinedRoot_of_walks hwalks', hfindings, hlength,
    ← Scanner.foldlM_examinedRoot_of_walks hwalks, ← Scanner.outcome]
  exact hs

theorem generate_of_walks {roots : List String} {ended : RunState}
    (hw : roots.map tree.walk = settings.classpath.map tree.walk)
    (h : settings.generate.onFiles tree = (.ok result, ended)) :
    { settings with classpath := roots }.generate.onFiles tree = (.ok result, ended) := by
  obtain ⟨hvalid, hscan, hrecord⟩ := onFiles_generate_eq_ok_iff.1 h
  have hroots : roots = [] ↔ settings.classpath = [] := by
    rw [← List.map_eq_nil_iff, hw, List.map_eq_nil_iff]
  have hvalid' : { settings with classpath := roots }.validate = .ok () := by
    rw [← hvalid]
    simp only [validate, hroots]
  exact onFiles_generate_eq_ok_iff.2 ⟨hvalid', scan_of_walks hw hscan, hrecord⟩

/-- The path of a directory to which no name of five letters can be appended. -/
def longRoot : String := Path.slashed "gen" 4088

theorem reach_longRoot (hc : tree.current = []) (hd : tree.isDirectory ["gen"] = true) :
    tree.reach longRoot = .ok ⟨["gen"], linkLimit, true⟩ := by
  have proper : Path.ProperName "gen" := by decide
  have hreach := FileTree.reach_slashed proper 4087 (by decide) (by decide) (hc ▸ rfl) (hc ▸ hd)
  rw [hc] at hreach
  exact hreach

theorem failure_longRoot (hc : tree.current = []) (hd : tree.isDirectory ["gen"] = true)
    (hshown : tree.children ["gen"] = ["names"]) :
    (tree.walk longRoot).failure = some (.unreadable (Path.join longRoot "names") .nameTooLong) := by
  refine FileTree.failure_of_long (reach_longRoot hc hd) hd rfl hshown ?_
  have hsize := Path.le_utf8ByteSize_join longRoot (show Path.ProperName "names" by decide)
  rw [longRoot, Path.utf8ByteSize_slashed] at hsize
  exact lt_of_lt_of_le (by decide) hsize

/-- Two definitions, and an empty directory for a manifest. -/
def roomyTree : FileTree :=
  Classpath.cyclicTree.put ["gen"] .directory

theorem walk_longRoot : roomyTree.walk longRoot = roomyTree.walk "gen" := by
  have hgen : roomyTree.walk "gen" = .of [] := by decide +kernel
  rw [hgen]
  exact FileTree.walk_of_empty (reach_longRoot rfl (by decide +kernel)) (by decide +kernel) rfl (by decide +kernel)

/-- The directory in which the manifest comes to stand is also a root. -/
def within (root : String) : Settings :=
  { sample with basePath := "gen", classpath := ["lib", root] }

/-- A run succeeds on a tree without links, with outputs that are called apart, and right after it another run does
not. -/
structure FailsAgain (settings : Settings) (tree : FileTree) : Prop where
  manifest : Path.isInput settings.manifestFile = false
  summary : ∀ path, settings.summaryFile = some path → Path.isInput path = false
  linkless : ∀ entry ∈ tree.entries, entry.node.target? = none
  wellFormed : tree.WellFormed
  fails : ∃ result ended, settings.generate.onFiles tree = (.ok result, ended) ∧ tree.KeepsOrder ended.files ∧
    ∀ result' ended', settings.generate.onFiles ended.files ≠ (.ok result', ended')

/-- A manifest stands in the way of the next run if the path of a root is so long that the manifest below it
cannot be looked up. -/
theorem failsAgain_longRoot : (within longRoot).FailsAgain roomyTree := by
  refine ⟨by decide +kernel, by decide +kernel, by decide +kernel, ⟨by decide +kernel, by decide +kernel⟩, ?_⟩
  have hruns : let first := (within "gen").generate.onFiles roomyTree
      first.1.toOption.isSome = true ∧ first.2.files.current = [] ∧ first.2.files.isDirectory ["gen"] = true ∧
        first.2.files.children ["gen"] = ["names"] ∧
        (first.2.files.entries.map Entry.place).filter (fun place => (roomyTree.node? place).isSome) =
          roomyTree.entries.map Entry.place := by decide +kernel
  generalize hrun : (within "gen").generate.onFiles roomyTree = first at hruns
  obtain ⟨hfirst, hcurrent, hdirectory, hshown, horder⟩ := hruns
  obtain ⟨result, hr⟩ := Except.isSome_toOption_iff.1 hfirst
  obtain ⟨outcome, ended⟩ := first
  cases hr
  have hwalks : ["lib", longRoot].map roomyTree.walk = ["lib", "gen"].map roomyTree.walk := by
    rw [List.map_cons, List.map_singleton, walk_longRoot]
    rfl
  have hlong : (within longRoot).generate.onFiles roomyTree = (.ok result, ended) :=
    @generate_of_walks (within "gen") roomyTree result ["lib", longRoot] ended hwalks hrun
  refine ⟨result, ended, hlong, FileTree.keepsOrder_of_places horder, fun result' ended' hagain => ?_⟩
  obtain ⟨_, hscan', _⟩ := onFiles_generate_eq_ok_iff.1 hagain
  obtain ⟨_, ht, _⟩ := scan_eq_ok_iff.1 hscan'
  have hsuccess := (types_eq_ok_iff.1 ht).1 longRoot (by simp [within])
  rw [failure_longRoot hcurrent hdirectory hshown] at hsuccess
  cases hsuccess

/-- A definition that goes by a second name. -/
def sharedTree : FileTree where
  entries :=
    let stored := Node.file (.bytes (ClassFile.plainBytes "A" "java.lang.Object" ["java.io.Serializable"]))
    [.of ["lib"] .directory, ⟨["A.class", "lib"], stored, some 0, 2, rfl⟩, ⟨["s.json"], stored, some 0, 1, rfl⟩]
  current := []
  distinct := by decide +kernel

/-- A summary that is written into a definition stands in the way of the next run. -/
theorem failsAgain_sharedTree : { sample with summaryFile := some "s.json" }.FailsAgain sharedTree := by
  refine ⟨by decide +kernel, by decide +kernel, by decide +kernel, ⟨by decide +kernel, by decide +kernel⟩, ?_⟩
  generalize hsettings : { sample with summaryFile := some "s.json" } = settings
  have hruns : let first := settings.generate.onFiles sharedTree
      first.1.toOption.isSome = true ∧
        (first.2.files.entries.map Entry.place).filter (fun place => (sharedTree.node? place).isSome) =
          sharedTree.entries.map Entry.place ∧
        (settings.generate.onFiles first.2.files).1.toOption = none := by
    subst hsettings
    decide +kernel
  generalize hrun : settings.generate.onFiles sharedTree = first at hruns
  obtain ⟨hfirst, horder, hsecond⟩ := hruns
  obtain ⟨result, hr⟩ := Except.isSome_toOption_iff.1 hfirst
  obtain ⟨outcome, ended⟩ := first
  cases hr
  refine ⟨result, ended, rfl, FileTree.keepsOrder_of_places horder, fun result' ended' hagain => ?_⟩
  rw [hagain] at hsecond
  cases hsecond

theorem failsAgain_longRoot_sharedTree : (within longRoot).FailsAgain roomyTree ∧
    { sample with summaryFile := some "s.json" }.FailsAgain sharedTree :=
  ⟨failsAgain_longRoot, failsAgain_sharedTree⟩

end Settings

end SerialManifest

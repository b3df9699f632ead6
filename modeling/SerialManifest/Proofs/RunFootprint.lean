import SerialManifest.Proofs.DirectoryCreation
import SerialManifest.Proofs.ManifestDeterminism
import SerialManifest.Proofs.RunOutcomes
import SerialManifest.Proofs.WholeFileWrite

namespace SerialManifest

namespace FileTree

variable {before after : FileTree} {path : String} {place : Location} {data : List UInt8}

def PathLeadsThrough (tree : FileTree) (path : String) (place : Location) : Prop :=
  tree.LeadsThrough (tree.start (Route.ofText path)) (Route.ofText path).steps place

/-- At the end of a path, a file has taken the place of whatever stood there. The path leads to nothing but
that file, and it does lead there if and only if its way to its last name still ends where it ended. That way
is as it was unless it went through a link that gave way. -/
structure Replaced (before after : FileTree) (path : String) (place : Location) (data : List UInt8) :
    Prop where
  slot : ∃ here name, before.slot path = .ok ⟨here, some name, false⟩ ∧ place = name :: here.place
  file : after.node? place = some (.file (.bytes data))
  others : ∀ other, other ≠ place → after.node? other = before.node? other
  only : ∀ other, after.resolve path = .ok other → other = place
  leads : (∀ target, before.node? place ≠ some (.link target)) → after.resolve path = .ok place
  again : after.resolve path = .ok place ↔ after.slot path = before.slot path

theorem slot_of_resolve_put {name : String} {here : Standing} {content : Content}
    (h : before.slot path = .ok ⟨here, some name, false⟩)
    (hr : (before.put (name :: here.place) (.file content)).resolve path = .ok (name :: here.place)) :
    (before.put (name :: here.place) (.file content)).slot path = .ok ⟨here, some name, false⟩ := by
  obtain ⟨hroute, lead, hs, ho, hd, hl⟩ := slot_eq_ok_iff.1 h
  have hp : name :: here.place ≠ [] := List.cons_ne_nil name here.place
  have hstart : (before.put (name :: here.place) (.file content)).start (Route.ofText path) =
      before.start (Route.ofText path) := by
    rw [start, start, current_put]
  obtain ⟨_, hreach, _⟩ := Except.map_eq_ok_iff.1 hr
  obtain ⟨other, he, honward⟩ := Except.bind_eq_ok_iff.1 hreach
  cases hroute.symm.trans he
  rw [hs, onward_append, hstart] at honward
  obtain ⟨middle, hmiddle, hlast⟩ := Except.bind_eq_ok_iff.1 honward
  -- the last name is looked up in a directory, so the way to it has not ended at the new file
  obtain ⟨jump, hjump⟩ := onward_eq_advance (before.put (name :: here.place) (.file content)) middle [.child name]
  obtain ⟨hdirectory, _⟩ := advance_child_eq_ok_iff.1 (hjump ▸ hlast)
  have hmiddle' := (onward_put_file hp hmiddle).resolve_left fun hm =>
    ((isDirectory_put_file before hp content middle.place).1 hdirectory).1 hm
  cases hmiddle'.symm.trans ho
  exact slot_of_steps hroute hs (hstart ▸ hmiddle) hdirectory hl

theorem replaced_of_put (h : before.placeToReplace path = .ok place) :
    Replaced before (before.put place (.file (.bytes data))) path place data := by
  obtain ⟨here, name, hslot, hd, rfl⟩ := placeToReplace_eq_ok_iff.1 h
  refine ⟨⟨here, name, hslot, rfl⟩, ?_, ?_, ?_, ?_, ?_, ?_⟩
  · exact node?_put_self before (List.cons_ne_nil name here.place) _
  · intro other ho
    exact node?_put_other before ho _
  · intro other ho
    exact resolve_put_file hslot ho
  · intro hlink
    exact resolve_put_shut hslot ⟨hd, hlink⟩
  · exact fun hr => (slot_of_resolve_put hslot hr).trans hslot.symm
  · intro hsame
    rw [hslot] at hsame
    exact resolve_of_slot hsame (node?_put_self before (List.cons_ne_nil name here.place) _)

end FileTree

theorem Manifest.render_eq (header : String) (names : List String) :
    render header names = header ++ "\n\n" ++ String.join (names.map (· ++ "\n")) := by
  have hfold : ∀ start : String, names.foldl (fun text name => text ++ name ++ "\n") start =
      start ++ String.join (names.map (· ++ "\n")) := by
    induction names with
    | nil => intro start; simp [String.join]
    | cons name rest ih =>
      intro start
      rw [List.foldl_cons, ih]
      simp [String.join_cons, String.append_assoc]
  exact hfold _

/-- Writing a manifest creates directories that lead to it, and puts it in its place unless it fails. -/
theorem Manifest.of_write {path header : String} {names : List String} {before after : FileTree}
    {outcome : Except OutputError Unit} (h : (write path header names).run.run before = (outcome, after)) :
    ∃ middle, FileTree.Grown (before.start (Route.ofText (directoryOf path)))
        (Route.ofText (directoryOf path)).steps before middle ∧
      match outcome with
      | .error _ => after = middle
      | .ok _ => ∃ place, FileTree.Replaced middle after path place (Text.Utf8.encode (render header names)) := by
  have hgrown := FileTree.createDirectories_grown before (directoryOf path)
  unfold write at h
  generalize hcreate : (FileTree.createDirectories (directoryOf path)).run.run before = created at hgrown
  obtain ⟨result, middle⟩ := created
  refine ⟨middle, hgrown, ?_⟩
  have hfirst : ((FileTree.createDirectories (directoryOf path)).orFail
      (.createDirectory (directoryOf path))).run.run before =
        (result.mapError (.createDirectory (directoryOf path)), middle) := by
    rw [FileAction.orFail, run_adapt, hcreate]
  cases result with
  | error fault =>
    rw [run_bind_of_error hfirst] at h
    cases h
    rfl
  | ok _ =>
    rw [run_bind_of_ok hfirst, FileAction.orFail, run_adapt] at h
    rw [FileTree.run_writeWhole] at h
    cases hplace : middle.wholePlace (directoryOf path) path (Text.Utf8.encode (render header names)) with
    | error fault =>
      rw [hplace] at h
      cases h
      rfl
    | ok place =>
      rw [hplace] at h
      cases h
      exact ⟨place, FileTree.replaced_of_put (FileTree.wholePlace_eq_ok_iff.1 hplace).1⟩

namespace Settings

variable {settings : Settings} {tree files later : FileTree} {result : ScanResult}

/-- The names of the file into which the summary is written, if one is asked for. -/
def SummaryName (settings : Settings) (tree : FileTree) (place : Location) : Prop :=
  ∃ first, settings.SummaryPlace tree first ∧ tree.OneFile first place

/-- The later tree differs from the earlier one at most by the summary and by new directories on the way to
the manifest. -/
structure Prepared (settings : Settings) (tree later : FileTree) : Prop where
  current : later.current = tree.current
  nodes : ∀ place, later.node? place = tree.node? place ∨
    settings.SummaryName tree place ∧ (∃ content, later.node? place = some (.file content)) ∨
    tree.node? place = none ∧ later.node? place = some .directory ∧
      later.PathLeadsThrough (Manifest.directoryOf settings.manifestFile) place

theorem Prepared.refl (settings : Settings) (tree : FileTree) : settings.Prepared tree tree :=
  ⟨rfl, fun _ => .inl rfl⟩

theorem SummaryPlace.refusal? {place : Location} (h : settings.SummaryPlace tree place) :
    tree.refusal? place = none := by
  obtain ⟨path, _, hr⟩ := h
  exact FileTree.refusal?_of_resolveForWriting hr

theorem SummaryPlace.ne_nil {place : Location} (h : settings.SummaryPlace tree place) : place ≠ [] :=
  FileTree.ne_nil_of_refusal? h.refusal?

theorem prepared_of_summarized (h : settings.summarized result tree = .ok files) :
    settings.Prepared tree files := by
  rcases summarized_eq_ok_iff.1 h with ⟨_, rfl⟩ | ⟨place, hplace, rfl⟩
  · exact .refl settings _
  · refine ⟨FileTree.current_fill _ _ _, fun other => ?_⟩
    by_cases hone : tree.OneFile place other
    · exact .inr (.inl ⟨⟨place, hplace, hone⟩, _, FileTree.node?_fill_of_oneFile hplace.ne_nil hone⟩)
    · exact .inl (FileTree.node?_fill_of_not hplace.ne_nil hone)

theorem Prepared.grown (prepared : settings.Prepared tree files)
    (grown : FileTree.Grown (files.start (Route.ofText (Manifest.directoryOf settings.manifestFile)))
      (Route.ofText (Manifest.directoryOf settings.manifestFile)).steps files later) :
    settings.Prepared tree later := by
  have hstart : ∀ route, later.start route = files.start route :=
    FileTree.start_of_current grown.current
  refine ⟨grown.current.trans prepared.current, fun place => ?_⟩
  rcases grown.nodes place with he | ⟨hnone, hnew, hleads⟩
  · rw [he]
    refine (prepared.nodes place).imp_right (Or.imp_right ?_)
    rintro ⟨hn, hd, hleads⟩
    refine ⟨hn, hd, ?_⟩
    unfold FileTree.PathLeadsThrough at hleads ⊢
    rw [hstart]
    exact grown.leadsThrough hleads
  · rcases prepared.nodes place with he | ⟨_, _, hfile⟩ | ⟨_, hd, _⟩
    · refine .inr (.inr ⟨he.symm.trans hnone, hnew, ?_⟩)
      unfold FileTree.PathLeadsThrough
      rw [hstart]
      exact hleads
    · cases hnone.symm.trans hfile
    · cases hnone.symm.trans hd

/-- The manifest of a result has taken its place, and apart from that the later tree differs from the earlier
one no more than it may before the manifest is written. -/
def ManifestWritten (settings : Settings) (tree later : FileTree) (result : ScanResult) : Prop :=
  ∃ before place, settings.Prepared tree before ∧
    FileTree.Replaced before later settings.manifestFile place
      (Text.Utf8.encode (settings.header ++ "\n\n" ++ String.join (result.manifest.map (· ++ "\n"))))

theorem prepared_of_unwritten {error : OutputError} (hsummary : settings.summarized result tree = .ok files)
    (hwrite : (settings.writeManifest result).run.run files = (.error error, later)) :
    settings.Prepared tree later := by
  obtain ⟨middle, grown, hafter⟩ := Manifest.of_write hwrite
  rw [hafter]
  exact (prepared_of_summarized hsummary).grown grown

theorem manifestWritten_of_written (hsummary : settings.summarized result tree = .ok files)
    (hwrite : (settings.writeManifest result).run.run files = (.ok (), later)) :
    settings.ManifestWritten tree later result := by
  obtain ⟨middle, grown, place, hreplaced⟩ := Manifest.of_write hwrite
  rw [Manifest.render_eq] at hreplaced
  exact ⟨middle, place, (prepared_of_summarized hsummary).grown grown, hreplaced⟩

/-- A file stays as it is when the manifest is written, unless it is what the path of the manifest leads to. -/
theorem node?_of_writeManifest {outcome : Except OutputError Unit} {place : Location} {content : Content}
    (hwrite : (settings.writeManifest result).run.run files = (outcome, later))
    (hfile : files.node? place = some (.file content))
    (hother : later.resolve settings.manifestFile ≠ .ok place) :
    later.node? place = some (.file content) := by
  obtain ⟨middle, grown, hafter⟩ := Manifest.of_write hwrite
  have hmiddle := grown.node? hfile
  cases outcome with
  | error error => exact hafter ▸ hmiddle
  | ok _ =>
    obtain ⟨slot, replaced⟩ := hafter
    by_cases hs : place = slot
    · -- what stands in the place of the manifest is no link, so the path of the manifest leads to it
      subst hs
      have hlink : ∀ target, middle.node? place ≠ some (.link target) := by
        intro target he
        cases hmiddle.symm.trans he
      exact absurd (replaced.leads hlink) hother
    · rw [replaced.others place hs]
      exact hmiddle

/-- A run that fails leaves the files as they were, but for the summary and new directories on the way to the
manifest. A run that succeeds has then put the manifest in its place, and nothing else has changed. -/
theorem files_of_generate {ended : RunState} {outcome : Except RunError ScanResult}
    (h : settings.generate.onFiles tree = (outcome, ended)) :
    (∀ error, outcome = .error error → settings.Prepared tree ended.files) ∧
      ∀ result, outcome = .ok result → settings.ManifestWritten tree ended.files result := by
  cases ends_of_onFiles h with
  | refused => exact ⟨fun _ _ => .refl settings _, nofun⟩
  | unscanned => exact ⟨fun _ _ => .refl settings _, nofun⟩
  | unsummarized => exact ⟨fun _ _ => .refl settings _, nofun⟩
  | violated _ _ hsummary => exact ⟨fun _ _ => prepared_of_summarized hsummary, nofun⟩
  | unwritten _ _ hsummary _ hwrite => exact ⟨fun _ _ => prepared_of_unwritten hsummary hwrite, nofun⟩
  | written _ _ hsummary _ hwrite =>
    refine ⟨nofun, fun _ he => ?_⟩
    cases he
    exact manifestWritten_of_written hsummary hwrite

/-- A link in the place of the manifest, and the file that it names. -/
def linkedTree : FileTree :=
  ((Classpath.cyclicTree.put ["out"] .directory).put ["names", "out"] (.link "keep")).put ["keep", "out"]
    (.file (.bytes [1]))

/-- The link gives way to the manifest, and the file that it named is as it was. -/
theorem files_of_linkedTree : ∃ result ended before place,
    sample.generate.onFiles linkedTree = (.ok result, ended) ∧ sample.Prepared linkedTree before ∧
      FileTree.Replaced before ended.files sample.manifestFile place (Text.Utf8.encode "#\n\nA\nB\n") ∧
      ended.files.node? ["keep", "out"] = some (.file (.bytes [1])) := by
  have hlisted : (sample.generate.onFiles linkedTree).1.toOption.map (·.manifest) = some ["A", "B"] := by
    decide +kernel
  have hkeep : (sample.generate.onFiles linkedTree).2.files.node? ["keep", "out"] =
      some (.file (.bytes [1])) := by
    decide +kernel
  obtain ⟨result, hr, hm⟩ := Option.map_eq_some_iff.1 hlisted
  generalize hrun : sample.generate.onFiles linkedTree = after at hr hkeep
  obtain ⟨outcome, ended⟩ := after
  have hok : outcome = .ok result := Except.toOption_eq_some_iff.1 hr
  obtain ⟨before, place, hprepared, hreplaced⟩ := (files_of_generate hrun).2 result hok
  rw [hm] at hreplaced
  subst hok
  exact ⟨result, ended, before, place, rfl, hprepared, hreplaced, hkeep⟩

/-- A link in the place of the manifest, through which the path of the manifest goes on its way. -/
def loopedTree : FileTree :=
  ((Classpath.cyclicTree.put ["out"] .directory).put ["d", "out"] .directory).put ["names", "out"] (.link "d")

/-- The link gives way to the manifest, and the path that led through it leads nowhere. -/
theorem manifest_of_loopedTree :
    let settings := { sample with manifestPath := "names/../names" }
    ∃ result ended, settings.generate.onFiles loopedTree = (.ok result, ended) ∧
      ended.files.node? ["names", "out"] = some (.file (.bytes (Text.Utf8.encode "#\n\nA\nB\n"))) ∧
      settings.manifestFile = "out/names/../names" ∧
      ended.files.readBytes settings.manifestFile = .error .notADirectory := by
  intro settings
  have hruns : let after := settings.generate.onFiles loopedTree
      after.1.toOption.isSome = true ∧
        after.2.files.node? ["names", "out"] = some (.file (.bytes (Text.Utf8.encode "#\n\nA\nB\n"))) ∧
        after.2.files.readBytes settings.manifestFile = .error .notADirectory := by
    decide +kernel
  generalize settings.generate.onFiles loopedTree = after at hruns
  obtain ⟨hok, hnode, hread⟩ := hruns
  obtain ⟨result, hr⟩ := Except.isSome_toOption_iff.1 hok
  obtain ⟨outcome, ended⟩ := after
  cases hr
  exact ⟨result, ended, rfl, hnode, by decide, hread⟩

end Settings

end SerialManifest

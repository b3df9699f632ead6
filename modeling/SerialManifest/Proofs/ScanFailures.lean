import SerialManifest.Proofs.CandidatePlaces
import SerialManifest.Proofs.SparedDefinitions

namespace SerialManifest

section FailsAs

variable {ε ε' α β : Type} {Kind : ε → Prop} {outcome : Except ε α}

/-- If there is no result, there is an error of this kind. -/
def FailsAs (Kind : ε → Prop) (outcome : Except ε α) : Prop :=
  ∀ error, outcome = .error error → Kind error

theorem FailsAs.ok (value : α) : FailsAs Kind (.ok value) :=
  nofun

theorem FailsAs.error {error : ε} (h : Kind error) : FailsAs Kind (.error error : Except ε α) := by
  rintro _ ⟨⟩
  exact h

theorem FailsAs.bind {next : α → Except ε β} (h : FailsAs Kind outcome)
    (others : ∀ value, outcome = .ok value → FailsAs Kind (next value)) :
    FailsAs Kind (outcome.bind next) := by
  cases outcome with
  | error error => exact .error (h error rfl)
  | ok value => exact others value rfl

theorem FailsAs.map (change : α → β) (h : FailsAs Kind outcome) : FailsAs Kind (outcome.map change) := by
  cases outcome with
  | error error => exact .error (h error rfl)
  | ok value => exact .ok _

theorem FailsAs.mapError {raise : ε → ε'} {Kind' : ε' → Prop} (h : FailsAs Kind outcome)
    (hraise : ∀ error, Kind error → Kind' (raise error)) : FailsAs Kind' (outcome.mapError raise) := by
  cases outcome with
  | error error => exact .error (hraise error (h error rfl))
  | ok value => exact .ok _

theorem FailsAs.foldlM {γ : Type} {step : α → γ → Except ε α} {items : List γ} (start : α)
    (h : ∀ value, ∀ item ∈ items, FailsAs Kind (step value item)) :
    FailsAs Kind (items.foldlM step start) := by
  induction items generalizing start with
  | nil => exact .ok start
  | cons item items ih =>
    have hitem := h start item List.mem_cons_self
    refine hitem.bind fun value _ => ?_
    exact ih value fun value other ho => h value other (List.mem_cons_of_mem item ho)

/-- What is asked after answers that fail in one way only fails in this way only. -/
theorem TypeFacts.failsAs_composes (Kind : QueryError → Prop) : Composes
    fun (action _ : Query Unit _) => FailsAs Kind (outcomeOf action) where
  pure value := .ok value
  bind first others := by
    rw [outcomeOf_bind]
    exact first.bind fun value _ => others value

theorem Verdicts.judge_failsAs {Kind : QueryError → Prop} {facts : TypeFacts Unit} {name : String}
    (relates : facts.Relates (fun action _ => FailsAs Kind (outcomeOf action)) facts name)
    (rules : EligibilityRules) (contract : FieldContract) :
    FailsAs Kind ((ofFacts rules contract facts).judge name) := by
  have composes := TypeFacts.failsAs_composes Kind
  have heligibility : FailsAs Kind ((ofFacts rules contract facts).eligibility name) :=
    relates.classify composes
  have hviolations : FailsAs Kind ((ofFacts rules contract facts).violations name) :=
    relates.check composes
  refine heligibility.bind fun eligibility _ => ?_
  split
  · exact hviolations.map _
  · exact .ok _

/-- Where the walks go through, only a judgement can fail. -/
theorem Scanner.outcome_failsAs {scanner : Scanner} {tree : FileTree} {verdicts : Verdicts}
    {roots : List String} {Kind : QueryError → Prop}
    (hwalks : ∀ root ∈ roots, (tree.walk root).failure = none)
    (h : ∀ candidate ∈ tree.findings roots, FailsAs Kind (verdicts.judge candidate.name)) :
    FailsAs (fun error => ∃ cause, error = .query cause ∧ Kind cause)
      (scanner.outcome tree verdicts roots) := by
  rw [outcome, foldlM_examinedRoot_of_walks hwalks]
  refine FailsAs.map _ (FailsAs.foldlM _ fun gathered candidate hm => ?_)
  exact ((h candidate hm).mapError fun cause hc => ⟨cause, rfl, hc⟩).map _

end FailsAs

/-- What a question can fail for if everything that has been indexed is in its place, `indexed` telling what has
been. -/
inductive FileTree.Residual (tree : FileTree) (indexed : Origin → Prop) : QueryError → Prop where
  | unresolved (name supertype : String) : tree.Residual indexed (.unresolvedSupertype name supertype)
  | malformed (name : String) (error : ClassFile.FormatError) : tree.Residual indexed (.malformed name error)
  | entry {path name : String} {archive : Archive} {error : ArchiveError}
    (hopen : tree.openArchive path = .ok archive) (hm : name ∈ archive.names)
    (hread : archive.read path name = .error error) : tree.Residual indexed (.archive error)
  | refused {path : String} {content : Content} {fault : FileFault} (hi : indexed (.file path))
    (leads : tree.LeadsToFile path content) (hrefuses : content.refusal? = some fault) :
    tree.Residual indexed (.unreadable path fault)

theorem Archive.read_of_listed {archive : Archive} {path name : String} {error : ArchiveError}
    (hm : name ∈ archive.names) (h : archive.read path name = .error error) :
    ∃ stored, archive.entryNamed? name = some stored ∧ stored.fault.isSome = true ∧
      ∀ other entry, error ≠ .missingEntry other entry := by
  have hstored : (archive.entryNamed? name).isSome = true := by
    simp only [names, List.mem_eraseDups, List.mem_map] at hm
    simpa [entryNamed?, List.find?_isSome] using hm
  obtain ⟨stored, hs⟩ := Option.isSome_iff_exists.1 hstored
  rw [Archive.read, hs] at h
  refine ⟨stored, hs, ?_⟩
  cases hf : stored.fault with
  | none => simp [hf] at h
  | some fault =>
    refine ⟨rfl, ?_⟩
    rintro other entry rfl
    cases fault <;> simp [hf] at h

namespace Classpath

variable {classpath : Classpath} {tree : FileTree} {name : String} {indexed : Origin → Prop}

/-- What has been indexed is in its place. -/
def Located (classpath : Classpath) (tree : FileTree) (indexed : Origin → Prop) : Prop :=
  ∀ name origin, classpath.index.origin? name = some origin → indexed origin ∧ tree.Locates origin

/-- The places at which definitions are found below roots. -/
def FoundBelow (tree : FileTree) (roots : List String) (origin : Origin) : Prop :=
  ∃ candidate ∈ tree.findings roots, candidate.origin = origin

theorem located_of_ofRoots (wellFormed : tree.WellFormed) {roots : List String} {classpath : Classpath}
    (h : Classpath.ofRoots tree roots = .ok classpath) : classpath.Located tree (FoundBelow tree roots) := by
  obtain ⟨_, rfl⟩ := addRoots_eq_ok_iff.1 h
  intro name origin ho
  have hfirst : Candidate.firstNamed? (tree.findings roots) name = some origin :=
    (TypeIndex.origin?_insertAll .empty (tree.findings roots) name).symm.trans ho
  obtain ⟨candidate, hf, rfl⟩ := Option.map_eq_some_iff.1 hfirst
  have hfound := List.mem_of_find?_eq_some hf
  obtain ⟨root, _, hm⟩ := List.mem_flatMap.1 hfound
  exact ⟨⟨candidate, hfound, rfl⟩, wellFormed.locates_of_mem_walk hm⟩

theorem definitionBytes_failsAs {origin : Origin} (hi : indexed origin) (h : tree.Locates origin) :
    FailsAs (tree.Residual indexed) (tree.definitionBytes origin) := by
  cases origin with
  | file path =>
    obtain ⟨content, leads⟩ := h
    rw [FileTree.definitionBytes, leads.readBytes, Content.read]
    cases hr : content.refusal? with
    | some fault => exact .error (.refused hi leads hr)
    | none => exact .ok content.data
  | entry path name =>
    obtain ⟨archive, hopen, hm⟩ := h
    rw [FileTree.definitionBytes, hopen]
    refine FailsAs.bind (.ok archive) fun other he => ?_
    cases he
    cases hread : archive.read path name with
    | error error => exact .error (.entry hopen hm hread)
    | ok data => exact .ok data

theorem definition_failsAs (located : classpath.Located tree indexed) (name : String) :
    FailsAs (tree.Residual indexed) (classpath.definition tree name) := by
  unfold definition
  cases ho : classpath.index.origin? name with
  | none => exact .ok none
  | some origin =>
    obtain ⟨hi, locates⟩ := located name origin ho
    refine (definitionBytes_failsAs hi locates).bind fun bytes _ => .map _ ?_
    cases ClassFile.parse bytes with
    | error error => exact .error (.malformed name error)
    | ok file => exact .ok file

theorem required_failsAs (located : classpath.Located tree indexed) (hm : name ∈ classpath.index.names) :
    FailsAs (tree.Residual indexed) (outcomeOf (classpath.requiredAfresh tree name)) := by
  rw [requiredAfresh, outcomeOf_bind, outcomeOf_told]
  refine (definition_failsAs located name).bind fun found hd => ?_
  cases found with
  | some file => exact .ok file
  | none => exact absurd hm (definition_eq_ok_none_iff.1 hd)

theorem told_failsAs {α : Type} (located : classpath.Located tree indexed) (hm : name ∈ classpath.index.names)
    (tell : ClassFile → α) :
    FailsAs (tree.Residual indexed) (outcomeOf (do return tell (← classpath.requiredAfresh tree name))) := by
  rw [outcomeOf_bind]
  exact (required_failsAs located hm).bind fun file _ => .ok (tell file)

theorem implements_failsAs (located : classpath.Located tree indexed) (hm : name ∈ classpath.index.names)
    (capability : String) :
    FailsAs (tree.Residual indexed) (outcomeOf ((classpath.factsAfresh tree).implements name capability)) := by
  intro error he
  have answered := classpath.implements_answered tree name capability
  rw [he] at answered
  rcases answered with ⟨hn, _⟩ | ⟨_, _, other, _, _, rfl⟩ | ⟨_, other, _, _, hd⟩
  · exact absurd hm hn
  · exact .unresolved name other
  · exact definition_failsAs located other error hd

theorem relates_failsAs (located : classpath.Located tree indexed) (hm : name ∈ classpath.index.names) :
    (classpath.factsAfresh tree).Relates
      (fun action _ => FailsAs (tree.Residual indexed) (outcomeOf action)) (classpath.factsAfresh tree) name where
  kind := told_failsAs located hm kindOf
  isAbstract := told_failsAs located hm (·.access.isAbstract)
  simpleName := told_failsAs located hm (·.simpleName)
  implements capability := implements_failsAs located hm capability
  field? field := told_failsAs located hm (·.field? field)

end Classpath

namespace Scanner

variable {tree : FileTree} {roots leafTypes : List String} {table : List (String × List String)}
variable {indexed : Origin → Prop}

theorem scan_failsAs {scanner : Scanner} {classpath : Classpath} (built : classpath.Built)
    (located : classpath.Located tree indexed) (hwalks : ∀ root ∈ roots, (tree.walk root).failure = none)
    (hindexed : ∀ candidate ∈ tree.findings roots, candidate.name ∈ classpath.index.names)
    (hidle : scanner.state = .idle) :
    FailsAs (fun error => ∃ cause, error = .query cause ∧ tree.Residual indexed cause)
      ((scanner.scan tree (classpath.facts tree) roots).run .empty).1.1 := by
  have hended : ∀ outcome, (scanner.ended outcome).1 = outcome := by
    intro outcome
    rw [ended, hidle]
  rw [scan_afresh built, hended]
  refine outcome_failsAs hwalks fun candidate hm => ?_
  exact Verdicts.judge_failsAs (Classpath.relates_failsAs located (hindexed candidate hm)) _ _

/-- Once roots have been indexed, a scan of them can only fail for a supertype that is not known, for a class
file that is malformed, for an entry whose data cannot be read, or for a class file that refuses to be read. The
walks go through, every type that is asked for is found, and so is the place of its definition. -/
theorem error_of_scanIndexed (wellFormed : tree.WellFormed) (rules : EligibilityRules)
    (contract : FieldContract) (manifestName : String) {error : ScanError} {later : Scanner}
    (h : (Scanner.fresh rules contract manifestName).scanIndexed tree roots table leafTypes =
      .ok (.error error, later)) :
    (∃ name supertype, error = .query (.unresolvedSupertype name supertype)) ∨
      (∃ name fault, error = .query (.malformed name fault)) ∨
      (∃ path name archive stored fault, error = .query (.archive fault) ∧
        tree.openArchive path = .ok archive ∧ archive.entryNamed? name = some stored ∧
        stored.fault.isSome = true ∧ archive.read path name = .error fault ∧
        ∀ other entry, fault ≠ .missingEntry other entry) ∨
      ∃ path fault, error = .query (.unreadable path fault) ∧
        (∃ candidate ∈ tree.findings roots, candidate.origin = .file path) ∧
        ∃ content, tree.LeadsToFile path content ∧ content.refusal? = some fault := by
  obtain ⟨indexed, hroots, hscan⟩ := Except.map_eq_ok_iff.1 h
  obtain ⟨hwalks, hindex⟩ := Classpath.addRoots_eq_ok_iff.1 hroots
  have built := ((Classpath.Built.ofRoots hroots).withPlatformTypes table).withLeafTypes leafTypes
  have located : ((indexed.withPlatformTypes table).withLeafTypes leafTypes).Located tree
      (Classpath.FoundBelow tree roots) :=
    fun name origin ho => Classpath.located_of_ofRoots wellFormed hroots name origin ho
  have hindexed : ∀ candidate ∈ tree.findings roots,
      candidate.name ∈ ((indexed.withPlatformTypes table).withLeafTypes leafTypes).index.names := by
    intro candidate hm
    have hname : candidate.name ∈ indexed.index.names := by
      rw [hindex]
      exact TypeIndex.mem_names_insertAll.2 (.inr ⟨candidate, hm, rfl⟩)
    exact hname
  obtain ⟨cause, rfl, residual⟩ :=
    scan_failsAs built located hwalks hindexed rfl error (congrArg Prod.fst hscan)
  cases residual with
  | unresolved name supertype => exact .inl ⟨name, supertype, rfl⟩
  | malformed name fault => exact .inr (.inl ⟨name, fault, rfl⟩)
  | @entry path name archive fault hopen hm hread =>
    obtain ⟨stored, hs, hfault, hlisted⟩ := Archive.read_of_listed hm hread
    exact .inr (.inr (.inl ⟨path, name, archive, stored, fault, rfl, hopen, hs, hfault, hread, hlisted⟩))
  | @refused path content fault hi leads hrefuses =>
    exact .inr (.inr (.inr ⟨path, fault, rfl, hi, content, leads, hrefuses⟩))

/-- The scans of a tree fail in two ways of which one archive and one class file cannot be read. -/
theorem error_of_spoiltTree :
    let scanner (name : String) :=
      Scanner.fresh ⟨[name], "java.io.Serializable", []⟩ (.version "serialVersionUID") "classes"
    spoiltTree.WellFormed ∧ ∀ name ∈ ["C", "D"], ∃ error later,
      (scanner name).scanIndexed spoiltTree ["lib"] [] [] = .ok (.error error, later) ∧
      ((∃ name supertype, error = .query (.unresolvedSupertype name supertype)) ∨
        (∃ name fault, error = .query (.malformed name fault)) ∨
        (∃ path name archive stored fault, error = .query (.archive fault) ∧
          spoiltTree.openArchive path = .ok archive ∧ archive.entryNamed? name = some stored ∧
          stored.fault.isSome = true ∧ archive.read path name = .error fault ∧
          ∀ other entry, fault ≠ .missingEntry other entry) ∨
        ∃ path fault, error = .query (.unreadable path fault) ∧
          (∃ candidate ∈ spoiltTree.findings ["lib"], candidate.origin = .file path) ∧
          ∃ content, spoiltTree.LeadsToFile path content ∧ content.refusal? = some fault) := by
  intro scanner
  have wellFormed : spoiltTree.WellFormed := ⟨by decide +kernel, by decide +kernel⟩
  have hfails : ∀ name ∈ ["C", "D"], ((scanner name).scanIndexed spoiltTree ["lib"] [] []).toOption.map
      (fun ended => ended.1.toOption.isNone) = some true := by
    decide +kernel
  refine ⟨wellFormed, fun name hm => ?_⟩
  obtain ⟨⟨outcome, later⟩, hscan, hnone⟩ := Option.map_eq_some_iff.1 (hfails name hm)
  have hscan := Except.toOption_eq_some_iff.1 hscan
  cases outcome with
  | ok result => cases hnone
  | error error => exact ⟨error, later, hscan, error_of_scanIndexed wellFormed _ _ _ hscan⟩

/-- A class that is a link to the memory of the program that reads it. -/
def memoryTree : FileTree :=
  ((FileTree.withCurrent ["work"]).put ["lib", "work"] .directory).put ["A.class", "lib", "work"]
    (.link "/proc/self/mem")

/-- It can be indexed, and the scan fails to read it. -/
theorem error_of_memoryTree :
    let scanner := Scanner.fresh ⟨["A"], "java.io.Serializable", []⟩ (.version "serialVersionUID") "classes"
    memoryTree.WellFormed ∧ (Classpath.ofRoots memoryTree ["lib"]).toOption.isSome = true ∧
      (scanner.scanIndexed memoryTree ["lib"] [] []).toOption.map Prod.fst =
        some (.error (.query (.unreadable "lib/A.class" .inputOutput))) := by
  intro scanner
  exact ⟨⟨by decide +kernel, by decide +kernel⟩, by decide +kernel, by decide +kernel⟩

end Scanner

end SerialManifest

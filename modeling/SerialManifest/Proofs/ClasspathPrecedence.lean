import SerialManifest.CommandLine.Reader
import SerialManifest.Proofs.FixedAnswers

namespace SerialManifest

namespace Settings

namespace Bindings

def names (bindings : Bindings) : List String :=
  bindings.values.map Prod.fst

def Distinct (bindings : Bindings) : Prop :=
  (bindings.values.map Prod.fst).Nodup

variable {bindings later : Bindings} {name table : String} {value : Value}

theorem names_of_define (h : bindings.define name value = some later) :
    name ∉ bindings.names ∧ later.names = bindings.names ++ [name] := by
  unfold Bindings.define at h
  split at h
  next => cases h
  next hnew =>
    cases h
    exact ⟨fun hm => hnew (.inl hm), List.map_append⟩

theorem names_of_addEntry (h : bindings.addEntry table name value = some later) :
    table ∈ bindings.names ∧ later.names = bindings.names := by
  unfold Bindings.addEntry at h
  split at h
  next hlookup =>
    split at h
    next => cases h
    next =>
      cases h
      obtain ⟨first, last, hvalues, _⟩ := List.lookup_eq_some_iff.1 hlookup
      refine ⟨by simp [names, hvalues], ?_⟩
      unfold names
      rw [List.map_map]
      apply List.map_congr_left
      intro b _
      by_cases hb : b.1 = table
      · simp [hb]
      · simp [hb]
  next => cases h

theorem names_of_add {statement : Statement} (h : bindings.add statement = some later) :
    later.names = bindings.names ∨ ∃ name, name ∉ bindings.names ∧ later.names = bindings.names ++ [name] := by
  cases statement with
  | header table =>
    obtain ⟨extended, hd, he⟩ := Option.bind_eq_some_iff.1 h
    cases he
    obtain ⟨hnew, hnames⟩ := names_of_define hd
    exact .inr ⟨table, hnew, hnames⟩
  | binding name value =>
    unfold Bindings.add at h
    cases hc : bindings.current with
    | none =>
      rw [hc] at h
      exact .inr ⟨name, names_of_define h⟩
    | some table =>
      rw [hc] at h
      exact .inl (names_of_addEntry h).2
  | entry table name value =>
    unfold Bindings.add at h
    simp only at h
    split at h
    next => cases h
    next =>
      split at h
      next => exact .inl (names_of_addEntry h).2
      next =>
        obtain ⟨extended, hd, he⟩ := Option.bind_eq_some_iff.1 h
        have hentry : later.names = extended.names := (names_of_addEntry he).2
        exact .inr ⟨table, hentry ▸ names_of_define hd⟩

theorem Distinct.add (distinct : bindings.Distinct) {statement : Statement}
    (h : bindings.add statement = some later) : later.Distinct := by
  change later.names.Nodup
  have hdistinct : bindings.names.Nodup := distinct
  rcases names_of_add h with hsame | ⟨name, hnew, hnames⟩
  · rwa [hsame]
  · rw [hnames]
    refine List.nodup_append.2 ⟨hdistinct, List.pairwise_singleton _ name, fun other ho single hs he => ?_⟩
    cases List.mem_singleton.1 hs
    exact hnew (he ▸ ho)

theorem Distinct.addAll {statements : List Statement} (distinct : bindings.Distinct)
    (h : statements.foldlM Bindings.add bindings = some later) : later.Distinct := by
  induction statements generalizing bindings with
  | nil =>
    cases h
    exact distinct
  | cons statement rest ih =>
    rw [List.foldlM_cons] at h
    obtain ⟨middle, hm, hr⟩ := Option.bind_eq_some_iff.1 h
    exact ih (distinct.add hm) hr

theorem nodup_of_ofDocument? {document : String} {values : List (String × Value)}
    (h : ofDocument? document = some values) : (values.map Prod.fst).Nodup := by
  unfold ofDocument? at h
  obtain ⟨tokens, _, h⟩ := Option.bind_eq_some_iff.1 h
  obtain ⟨statements, _, h⟩ := Option.bind_eq_some_iff.1 h
  obtain ⟨bindings, hb, h⟩ := Option.bind_eq_some_iff.1 h
  cases h
  have hempty : empty.Distinct := List.nodup_nil
  exact hempty.addAll hb

end Bindings

variable {start later : Settings} {bindings : List (String × Value)}

theorem classpath_of_assign {name : String} {value : Value} (h : start.assign (name, value) = some later) :
    name = "classpath" ∧ value = .texts later.classpath ∨
      name ≠ "classpath" ∧ later.classpath = start.classpath := by
  unfold assign at h
  split at h
  case h_5 paths he =>
    cases he
    cases h
    exact .inl ⟨rfl, rfl⟩
  case h_13 => cases h
  all_goals
    rename_i he
    cases he
    cases h
    exact .inr ⟨by decide, rfl⟩

def boundRoots (bindings : List (String × Value)) : List String :=
  match bindings.lookup "classpath" with
  | some (.texts roots) => roots
  | _ => []

theorem classpath_of_assignAll (hn : (bindings.map Prod.fst).Nodup)
    (h : bindings.foldlM assign start = some later) :
    bindings.lookup "classpath" = some (.texts later.classpath) ∨
      bindings.lookup "classpath" = none ∧ later.classpath = start.classpath := by
  induction bindings generalizing start with
  | nil =>
    cases h
    exact .inr ⟨rfl, rfl⟩
  | cons binding rest ih =>
    obtain ⟨name, value⟩ := binding
    rw [List.foldlM_cons] at h
    obtain ⟨middle, ha, hr⟩ := Option.bind_eq_some_iff.1 h
    rw [List.map_cons, List.nodup_cons] at hn
    obtain ⟨hnew, hn⟩ := hn
    rcases classpath_of_assign ha with ⟨rfl, rfl⟩ | ⟨hne, hsame⟩
    · -- no later binding has the name, so what this one gives lasts
      left
      rcases ih hn hr with hbound | ⟨_, hlast⟩
      · obtain ⟨first, last, he, _⟩ := List.lookup_eq_some_iff.1 hbound
        exact absurd (by simp [he]) hnew
      · rw [List.lookup_cons_self, hlast]
    · have hb : ("classpath" == name) = false := by simpa using hne.symm
      rw [List.lookup_cons, hb, ← hsame]
      exact ih hn hr

/-- The classpath that a document gives is the one that it binds. -/
theorem classpath_of_ofDocument? {home : Option String} {document : String} {settings : Settings}
    (h : ofDocument? home document = some settings) : ∃ bindings,
      Bindings.ofDocument? document = some bindings ∧ settings.classpath = boundRoots bindings := by
  obtain ⟨bindings, hb, ha⟩ := Option.bind_eq_some_iff.1 h
  refine ⟨bindings, hb, ?_⟩
  unfold boundRoots
  rcases classpath_of_assignAll (Bindings.nodup_of_ofDocument? hb) ha with hbound | ⟨hnone, hlast⟩
  · rw [hbound]
  · rw [hnone, hlast]
    rfl

end Settings

namespace CommandLine

variable {line : CommandLine} {environment : Environment} {tree : FileTree} {settings : Settings}

def bindings? (line : CommandLine) (tree : FileTree) : Option (List (String × Settings.Value)) := do
  let path ← line.config
  let bytes ← (tree.readBytes path).toOption
  let document ← Text.Utf8.decode? bytes
  Settings.Bindings.ofDocument? document

/-- The roots that the document asks for that the command line names. There are none where there is no
document, or where it does not bind them. -/
def documentRoots (line : CommandLine) (tree : FileTree) : List String :=
  ((line.bindings? tree).map Settings.boundRoots).getD []

def environmentRoots (environment : Environment) : List String :=
  pathsIn environment.classpath.toList

theorem classpath_of_baseSettings (h : line.baseSettings environment tree = .ok settings) :
    settings.classpath = line.documentRoots tree := by
  unfold baseSettings at h
  unfold documentRoots bindings?
  cases hc : line.config with
  | none =>
    rw [hc] at h
    cases h
    rfl
  | some path =>
    rw [hc] at h
    simp only [Settings.ofFile, Settings.ofDocument] at h
    cases hr : tree.readBytes path with
    | error fault =>
      rw [hr] at h
      cases h
    | ok bytes =>
      rw [hr] at h
      simp only at h
      cases hd : Text.Utf8.decode? bytes with
      | none =>
        rw [hd] at h
        cases h
      | some document =>
        rw [hd] at h
        simp only at h
        split at h
        next found hfound =>
          cases h
          obtain ⟨bindings, hb, hclasspath⟩ := Settings.classpath_of_ofDocument? hfound
          simp [hr, hd, hb, hclasspath, Except.toOption]
        next => cases h

theorem roots_of_silent (h : line.classpath = []) : line.roots environment = environmentRoots environment := by
  rw [roots, if_pos h]
  rfl

theorem roots_of_spoken (h : line.classpath ≠ []) : line.roots environment = pathsIn line.classpath := by
  rw [roots, if_neg h]

theorem classpath_of_override (h : line.settings environment tree = .ok settings) :
    settings.classpath =
      if line.roots environment = [] then line.documentRoots tree else line.roots environment := by
  obtain ⟨base, hb, rfl⟩ := Except.map_eq_ok_iff.1 h
  rw [← classpath_of_baseSettings hb]
  rfl

/-- Which of two sources comes first matters unless one of them has nothing or they say the same. -/
theorem first_of_two_iff {first second : List String} :
    ((if second = [] then first else second) = if first = [] then second else first) ↔
      first = [] ∨ second = [] ∨ first = second := by
  by_cases hf : first = []
  · by_cases hs : second = []
    · simp [hf, hs]
    · simp [hf, hs]
  · by_cases hs : second = []
    · simp [hf, hs]
    · simp [hf, hs, eq_comm]

/-- The roots of the command line are those of a run, where it has any. Where it is silent, those of the
environment come before those of the document; the document comes first, if and only if one of the two has
none or they are the same. -/
theorem classpath_of_settings (h : line.settings environment tree = .ok settings) :
    (pathsIn line.classpath ≠ [] → settings.classpath = pathsIn line.classpath) ∧
    (line.classpath = [] →
      settings.classpath =
        (if environmentRoots environment = [] then line.documentRoots tree
          else environmentRoots environment) ∧
      ((settings.classpath =
          if line.documentRoots tree = [] then environmentRoots environment else line.documentRoots tree) ↔
        line.documentRoots tree = [] ∨ environmentRoots environment = [] ∨
          line.documentRoots tree = environmentRoots environment)) ∧
    (line.classpath ≠ [] → pathsIn line.classpath = [] → settings.classpath = line.documentRoots tree) := by
  have hclasspath := classpath_of_override h
  refine ⟨fun hsome => ?_, fun hsilent => ?_, fun hspoken hnone => ?_⟩
  · have hspoken : line.classpath ≠ [] := by
      intro he
      rw [he] at hsome
      exact hsome rfl
    rw [roots_of_spoken hspoken, if_neg hsome] at hclasspath
    exact hclasspath
  · rw [roots_of_silent hsilent] at hclasspath
    refine ⟨hclasspath, ?_⟩
    rw [hclasspath]
    exact first_of_two_iff
  · rw [roots_of_spoken hspoken, if_pos hnone] at hclasspath
    exact hclasspath

def documentTree : FileTree :=
  (FileTree.around []).put ["g.toml"]
    (.file (.bytes (Text.Utf8.encode "classpath = [\"file\"]")))

def naming : CommandLine := { empty with config := some "g.toml" }

theorem classpath_of_documentTree : ∃ settings,
    naming.settings ⟨none, none⟩ documentTree = .ok settings ∧ settings.classpath = ["file"] := by
  have hread : (naming.settings ⟨none, none⟩ documentTree).toOption.isSome = true := by
    decide +kernel
  have hroots : naming.documentRoots documentTree = ["file"] := by
    decide +kernel
  obtain ⟨settings, h⟩ := Except.isSome_toOption_iff.1 hread
  obtain ⟨_, hsilent, _⟩ := classpath_of_settings h
  refine ⟨settings, h, ?_⟩
  rw [(hsilent rfl).1, hroots]
  rfl

/-- The environment overrules the document. -/
theorem document_overruled :
    (ofArguments ["--config", "g.toml"]).toOption = some naming ∧ naming.documentRoots documentTree = ["file"] ∧
      (naming.settings ⟨none, some "env"⟩ documentTree).toOption.map (·.classpath) = some ["env"] := by
  refine ⟨?_, ?_, ?_⟩
  · decide +kernel
  · decide +kernel
  · decide +kernel

end CommandLine

end SerialManifest

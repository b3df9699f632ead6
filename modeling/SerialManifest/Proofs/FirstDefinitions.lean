import Mathlib.Data.List.Dedup
import SerialManifest.Proofs.ClasspathSession

namespace SerialManifest

namespace TypeIndex

theorem insertAll_append (index : TypeIndex) (first later : List Candidate) :
    index.insertAll (first ++ later) = (index.insertAll first).insertAll later :=
  List.foldl_append

/-- The names that are found and have no entry yet, each of them once. -/
def missing (index : TypeIndex) (candidates : List Candidate) : List String :=
  (candidates.map Candidate.name).dedup.filter (· ∉ index.names)

theorem mem_missing_iff {index : TypeIndex} {candidates : List Candidate} {name : String} :
    name ∈ index.missing candidates ↔
      (∃ candidate ∈ candidates, candidate.name = name) ∧ name ∉ index.names := by
  simp [missing]

theorem size_insertAll (index : TypeIndex) (candidates : List Candidate) :
    (index.insertAll candidates).size = index.size + (index.missing candidates).length := by
  have hnodup : (index.names ++ index.missing candidates).Nodup := by
    refine List.nodup_append'.2 ⟨index.distinct, (List.nodup_dedup _).filter _, fun name hm ha => ?_⟩
    exact (mem_missing_iff.1 ha).2 hm
  have hmem : ∀ name, name ∈ (index.insertAll candidates).names ↔
      name ∈ index.names ++ index.missing candidates := by
    intro name
    rw [mem_names_insertAll, List.mem_append, mem_missing_iff]
    tauto
  have hperm : (index.insertAll candidates).names.Perm (index.names ++ index.missing candidates) :=
    (List.perm_ext_iff_of_nodup (index.insertAll candidates).distinct hnodup).2 hmem
  simpa [names, size] using hperm.length_eq

theorem missing_empty (candidates : List Candidate) :
    empty.missing candidates = (candidates.map Candidate.name).dedup :=
  List.filter_eq_self.2 fun _ _ => by simp [empty, names]

end TypeIndex

namespace Session

variable {session : Session} {files : FileTree}

def fresh (files : FileTree) : Session :=
  ⟨files, .empty, .empty⟩

/-- The definitions that come in with an event. A walk that fails has come upon some before it failed. -/
def found (session : Session) : Event → List Candidate
  | .addRoot root => (session.files.walk root).found
  | _ => []

def visited (session : Session) : List Event → List Candidate
  | [] => []
  | event :: later => session.found event ++ (session.after event).visited later

theorem index_after (session : Session) (event : Event) :
    (session.after event).classpath.index = session.classpath.index.insertAll (session.found event) := by
  cases event <;> rfl

theorem index_afterAll (session : Session) (events : List Event) :
    (session.afterAll events).classpath.index = session.classpath.index.insertAll (session.visited events) := by
  induction events generalizing session with
  | nil => rfl
  | cons event events ih =>
    change ((session.after event).afterAll events).classpath.index = _
    rw [ih, index_after, visited, TypeIndex.insertAll_append]

def Event.KeepsFiles : Event → Prop
  | .change _ => False
  | _ => True

/-- A session on these files whose memory agrees with them. -/
structure Sound (session : Session) (files : FileTree) : Prop where
  unchanged : session.files = files
  built : session.classpath.Built
  faithful : session.cache.Faithful session.classpath files

theorem sound_fresh (files : FileTree) : (fresh files).Sound files :=
  ⟨rfl, .empty, ClassCache.faithful_empty .empty files⟩

theorem Sound.after (sound : session.Sound files) {event : Event} (h : event.KeepsFiles) :
    (session.after event).Sound files := by
  obtain ⟨rfl, built, faithful⟩ := sound
  cases event with
  | ask question => exact ⟨rfl, built, Classpath.faithful_remember built faithful question⟩
  | addRoot root => exact ⟨rfl, built.addRoot session.files root, Classpath.faithful_addRoot faithful root⟩
  | withPlatformTypes table => exact ⟨rfl, built.withPlatformTypes table, faithful.classes, faithful.archives⟩
  | withLeafTypes types => exact ⟨rfl, built.withLeafTypes types, faithful.classes, faithful.archives⟩
  | change files => exact h.elim

theorem Sound.afterAll (sound : session.Sound files) {events : List Event}
    (h : ∀ event ∈ events, event.KeepsFiles) : (session.afterAll events).Sound files := by
  induction events generalizing session with
  | nil => exact sound
  | cons event events ih =>
    have hevent := sound.after (h event List.mem_cons_self)
    exact ih hevent fun other hm => h other (List.mem_cons_of_mem event hm)

/-- What lies directly above a type, as a search in this session finds it. -/
def supertypes (session : Session) (name : String) : Except QueryError (List String) :=
  (((session.classpath.hierarchy session.files).supertypes name).run.run session.cache).1

theorem supertypes_eq (session : Session) (name : String) :
    session.supertypes name = (session.answer (.classFile name)).map fun
      | some file => file.supertypes
      | none => (session.classpath.platformTypes.lookup name).getD [] := by
  rw [supertypes, Classpath.hierarchy, run_bind]
  change _ = ((session.classpath.classFile? session.files name).run.run session.cache).1.map _
  generalize (session.classpath.classFile? session.files name).run.run session.cache = after
  obtain ⟨result, later⟩ := after
  cases result with
  | error error => rfl
  | ok found => cases found <;> rfl

theorem supertypes_of_answer {name : String} {outcome : Except QueryError ClassFile}
    (h : session.answer (.classFile name) = outcome.map some) :
    session.supertypes name = outcome.map (·.supertypes) := by
  rw [supertypes_eq, h]
  cases outcome <;> rfl

theorem Sound.answer_classFile (sound : session.Sound files) {name : String} {origin : Origin}
    (ho : session.origin? name = some origin) :
    session.answer (.classFile name) = (parsed name (files.definitionBytes origin)).map some := by
  obtain ⟨rfl, built, faithful⟩ := sound
  have hdefinition : session.classpath.definition session.files name =
      (parsed name (session.files.definitionBytes origin)).map some := by
    rw [Classpath.definition, show session.classpath.index.origin? name = some origin from ho, parsed]
    dsimp only
    cases session.files.definitionBytes origin <;> rfl
  exact (Classpath.answer_of_faithful built faithful (.classFile name)).trans hdefinition

/-- In all that can happen one after the other, an indexed name stands for the definition that was found first,
though walks may have failed, and nothing that happens later takes it back. There are as many indexed types as
names have been found. While the files stay as they are, the first definition answers all questions about its
type and says what lies directly above it, however many others are found later. -/
theorem first_found_stands (files : FileTree) (history : List Event) :
    let session := (fresh files).afterAll history
    let visited := (fresh files).visited history
    (∀ name, session.origin? name = Candidate.firstNamed? visited name) ∧
    session.classpath.index.size = (visited.map Candidate.name).dedup.length ∧
    (∀ later name origin, session.origin? name = some origin →
      (session.afterAll later).origin? name = some origin) ∧
    ∀ later, (∀ event ∈ history ++ later, event.KeepsFiles) → ∀ name origin,
      Candidate.firstNamed? visited name = some origin →
        let outcome := parsed name (files.definitionBytes origin)
        (session.afterAll later).Tells name outcome ∧
          (session.afterAll later).supertypes name = outcome.map (·.supertypes) := by
  intro session visited
  have hindex : session.classpath.index = TypeIndex.empty.insertAll visited :=
    index_afterAll (fresh files) history
  have horigin : ∀ name, session.origin? name = Candidate.firstNamed? visited name := by
    intro name
    rw [origin?, hindex, TypeIndex.origin?_insertAll]
    rfl
  have hsize : session.classpath.index.size = (visited.map Candidate.name).dedup.length := by
    rw [hindex, TypeIndex.size_insertAll, TypeIndex.missing_empty]
    exact Nat.zero_add _
  refine ⟨horigin, hsize, ?_, ?_⟩
  · exact fun later => (session.keeps_afterAll later).origin?
  · intro later hkept name origin hfirst outcome
    have sound : (session.afterAll later).Sound files :=
      ((sound_fresh files).afterAll fun event hm => hkept event (List.mem_append_left later hm)).afterAll
        fun event hm => hkept event (List.mem_append_right history hm)
    have hlater := (session.keeps_afterAll later).origin? name origin ((horigin name).trans hfirst)
    have hanswer := sound.answer_classFile hlater
    exact ⟨tells_of_answer hanswer, supertypes_of_answer hanswer⟩

/-- Two directories that define one type, the second of them with a file that is no archive. -/
def shadowedTree : FileTree :=
  (((FileTree.ofFiles "first" [("A.class", ClassFile.plainBytes "A" "java.lang.Object" ["java.io.Serializable"])]).put
    ["second"] .directory).put ["A.class", "second"] (.file (.bytes (ClassFile.plainBytes "A" "B" [])))).put
    ["c.jar", "second"] (.file (.bytes []))

/-- A walk that fails after a second definition of a type has been found leaves the first one in its place. -/
theorem first_found_of_shadowedTree :
    let history := [Event.addRoot "first", .ask (.kind "A"), .addRoot "second"]
    let later := [Event.addRoot "second/A.class", .ask (.implements "A" "B")]
    let session := (fresh shadowedTree).afterAll history
    (shadowedTree.walk "second").failure.isSome = true ∧
      ((fresh shadowedTree).visited history).map (·.origin) =
        [.file "first/A.class", .file "second/A.class"] ∧
      session.classpath.index.size = 1 ∧
      ((session.afterAll later).supertypes "A").toOption = some ["java.lang.Object", "java.io.Serializable"] := by
  intro history later session
  obtain ⟨_, hsize, _, htells⟩ := first_found_stands shadowedTree history
  have hfirst : Candidate.firstNamed? ((fresh shadowedTree).visited history) "A" =
      some (.file "first/A.class") := by
    decide +kernel
  have hkept : ∀ event ∈ history ++ later, event.KeepsFiles := by
    simp [history, later, Event.KeepsFiles]
  refine ⟨by decide +kernel, by decide +kernel, ?_, ?_⟩
  · rw [hsize]
    decide +kernel
  · rw [(htells later hkept "A" _ hfirst).2]
    decide +kernel

end Session

end SerialManifest

import SerialManifest.Proofs.ClasspathQuestions

namespace SerialManifest

namespace ClassCache

/-- More is remembered after than before, and the archives that have come in are in the file tree. -/
structure Grows (tree : FileTree) (before after : ClassCache) : Prop where
  classes : ∀ name file, before.classes.lookup name = some file → after.classes.lookup name = some file
  archives : ∀ key archive, before.archives.lookup key = some archive →
    after.archives.lookup key = some archive
  opened : ∀ key archive, after.archives.lookup key = some archive →
    before.archives.lookup key = some archive ∨
      ∃ path, Path.key path = key ∧ tree.openArchive path = .ok archive

theorem Grows.refl (tree : FileTree) (cache : ClassCache) : cache.Grows tree cache :=
  ⟨fun _ _ => id, fun _ _ => id, fun _ _ => .inl⟩

theorem Grows.trans {tree : FileTree} {before middle after : ClassCache} (first : before.Grows tree middle)
    (second : middle.Grows tree after) : before.Grows tree after where
  classes name file h := second.classes name file (first.classes name file h)
  archives key archive h := second.archives key archive (first.archives key archive h)
  opened key archive h := by
    rcases second.opened key archive h with hm | ho
    · exact first.opened key archive hm
    · exact .inr ho

/-- From every memory the question leads to one in which there is more. -/
def Growing {α : Type} (tree : FileTree) (query : Query ClassCache α) : Prop :=
  ∀ cache : ClassCache, cache.Grows tree (query.run.run cache).2

namespace Growing

variable {α β : Type} {tree : FileTree}

theorem pure (value : α) : Growing tree (Pure.pure value) :=
  fun cache => .refl tree cache

theorem throw (error : QueryError) : Growing tree (MonadExcept.throw error : Query ClassCache α) :=
  fun cache => .refl tree cache

theorem bind {query : Query ClassCache α} {next : α → Query ClassCache β} (h : Growing tree query)
    (hn : ∀ value, Growing tree (next value)) : Growing tree (query >>= next) := by
  intro cache
  have hfirst := h cache
  rw [run_bind]
  generalize query.run.run cache = after at hfirst
  obtain ⟨result, later⟩ := after
  cases result with
  | error error => exact hfirst
  | ok value => exact hfirst.trans (hn value later)

end Growing

end ClassCache

namespace Hierarchy

open ClassCache

theorem searchFrom_growing {tree : FileTree} {hierarchy : Hierarchy ClassCache}
    (h : ∀ name, Growing tree (hierarchy.supertypes name)) (capability : String) (expanded : List String)
    (unresolved : Option String) (pending : List String) :
    Growing tree (hierarchy.searchFrom capability expanded unresolved pending) := by
  induction expanded, unresolved, pending using searchFrom.induct hierarchy capability with
  | case1 expanded unresolved pending hs =>
    rw [searchFrom, hs]
    exact .pure _
  | case2 expanded unresolved pending hs =>
    rw [searchFrom, hs]
    exact .pure _
  | case3 expanded unresolved pending supertype hs =>
    rw [searchFrom, hs]
    exact .pure _
  | case4 expanded unresolved pending name rest later hs ih =>
    rw [searchFrom, hs]
    exact (h name).bind ih

end Hierarchy

namespace Classpath

open ClassCache

variable {classpath : Classpath} {tree : FileTree} {cache later : ClassCache}

theorem run_openArchive_of_kept {path : String} {archive : Archive}
    (h : cache.archives.lookup (Path.key path) = some archive) :
    (openArchive tree path).run.run cache = (.ok archive, cache) := by
  rw [openArchive, run_get_bind, h]
  rfl

theorem run_openArchive_of_fresh {path : String} (h : cache.archives.lookup (Path.key path) = none) :
    (openArchive tree path).run.run cache =
      match tree.openArchive path with
      | .error error => (.error (.archive error), cache)
      | .ok archive => (.ok archive, { cache with archives := (Path.key path, archive) :: cache.archives }) := by
  rw [openArchive, run_get_bind, h]
  cases tree.openArchive path <;> rfl

theorem run_readDefinition_file (path : String) : (readDefinition tree (.file path)).run.run cache =
    ((tree.readBytes path).mapError (.unreadable path), cache) := by
  rw [readDefinition]
  cases tree.readBytes path <;> rfl

theorem run_readDefinition_entry (path name : String) :
    (readDefinition tree (.entry path name)).run.run cache =
      match (openArchive tree path).run.run cache with
      | (.error error, later) => (.error error, later)
      | (.ok archive, later) => ((archive.read path name).mapError .archive, later) := by
  rw [readDefinition, run_bind]
  generalize (openArchive tree path).run.run cache = after
  obtain ⟨result, later⟩ := after
  cases result with
  | error error => rfl
  | ok archive =>
    dsimp only
    cases archive.read path name <;> rfl

theorem grows_openArchive (path : String) : Growing tree (openArchive tree path) := by
  intro cache
  cases hl : cache.archives.lookup (Path.key path) with
  | some archive =>
    rw [run_openArchive_of_kept hl]
    exact .refl tree cache
  | none =>
    rw [run_openArchive_of_fresh hl]
    cases ho : tree.openArchive path with
    | error error => exact .refl tree cache
    | ok archive =>
      refine ⟨fun _ _ => id, fun key stored h => ?_, fun key stored h => ?_⟩
      · have hne : (key == Path.key path) = false := by
          rw [beq_eq_false_iff_ne]
          rintro rfl
          cases hl.symm.trans h
        rw [List.lookup_cons, hne]
        exact h
      · rw [List.lookup_cons] at h
        split at h
        next he =>
          cases h
          exact .inr ⟨path, (beq_iff_eq.1 he).symm, ho⟩
        next => exact .inl h

theorem grows_readDefinition (origin : Origin) : Growing tree (readDefinition tree origin) := by
  cases origin with
  | file path =>
    rw [readDefinition]
    cases tree.readBytes path with
    | error fault => exact .throw _
    | ok data => exact .pure data
  | entry path name =>
    refine (grows_openArchive path).bind fun archive => ?_
    cases archive.read path name with
    | error error => exact .throw _
    | ok data => exact .pure data

theorem classes_openArchive (path : String) :
    ((openArchive tree path).run.run cache).2.classes = cache.classes := by
  cases hl : cache.archives.lookup (Path.key path) with
  | some archive => rw [run_openArchive_of_kept hl]
  | none =>
    rw [run_openArchive_of_fresh hl]
    cases tree.openArchive path <;> rfl

theorem classes_readDefinition (origin : Origin) :
    ((readDefinition tree origin).run.run cache).2.classes = cache.classes := by
  cases origin with
  | file path => rw [run_readDefinition_file]
  | entry path name =>
    have hclasses : ((openArchive tree path).run.run cache).2.classes = cache.classes :=
      classes_openArchive path
    rw [run_readDefinition_entry]
    generalize (openArchive tree path).run.run cache = after at hclasses
    obtain ⟨result, later⟩ := after
    cases result <;> exact hclasses

theorem run_classFile?_of_kept {name : String} {file : ClassFile}
    (h : cache.classes.lookup name = some file) :
    (classpath.classFile? tree name).run.run cache = (.ok (some file), cache) := by
  rw [classFile?, run_get_bind, h]
  rfl

theorem run_classFile?_of_unindexed {name : String} (h : cache.classes.lookup name = none)
    (ho : classpath.index.origin? name = none) :
    (classpath.classFile? tree name).run.run cache = (.ok none, cache) := by
  rw [classFile?, run_get_bind, h, ho]
  rfl

theorem run_classFile?_of_fresh {name : String} {origin : Origin} (h : cache.classes.lookup name = none)
    (ho : classpath.index.origin? name = some origin) :
    (classpath.classFile? tree name).run.run cache =
      match (readDefinition tree origin).run.run cache with
      | (.error error, later) => (.error error, later)
      | (.ok bytes, later) =>
        match ClassFile.parse bytes with
        | .error error => (.error (.malformed name error), later)
        | .ok file => (.ok (some file), { later with classes := (name, file) :: later.classes }) := by
  rw [classFile?, run_get_bind, h, ho]
  dsimp only
  rw [run_bind]
  generalize (readDefinition tree origin).run.run cache = after
  obtain ⟨result, later⟩ := after
  cases result with
  | error error => rfl
  | ok bytes =>
    dsimp only
    cases ClassFile.parse bytes <;> rfl

theorem lookup_classFile? {name : String} {file : ClassFile}
    (h : (classpath.classFile? tree name).run.run cache = (.ok (some file), later)) :
    later.classes.lookup name = some file := by
  cases hl : cache.classes.lookup name with
  | some kept =>
    rw [run_classFile?_of_kept hl] at h
    cases h
    exact hl
  | none =>
    cases ho : classpath.index.origin? name with
    | none =>
      rw [run_classFile?_of_unindexed hl ho] at h
      cases h
    | some origin =>
      rw [run_classFile?_of_fresh hl ho] at h
      split at h
      next => cases h
      next =>
        split at h
        next => cases h
        next =>
          cases h
          simp

theorem classes_of_classFile?_error {name : String} {error : QueryError}
    (h : (classpath.classFile? tree name).run.run cache = (.error error, later)) :
    cache.classes.lookup name = none ∧ later.classes = cache.classes := by
  cases hl : cache.classes.lookup name with
  | some kept =>
    rw [run_classFile?_of_kept hl] at h
    cases h
  | none =>
    refine ⟨rfl, ?_⟩
    cases ho : classpath.index.origin? name with
    | none =>
      rw [run_classFile?_of_unindexed hl ho] at h
      cases h
    | some origin =>
      have hclasses : ((readDefinition tree origin).run.run cache).2.classes = cache.classes :=
        classes_readDefinition origin
      rw [run_classFile?_of_fresh hl ho] at h
      generalize (readDefinition tree origin).run.run cache = after at h hclasses
      obtain ⟨result, middle⟩ := after
      cases result with
      | error other =>
        cases h
        exact hclasses
      | ok bytes =>
        dsimp only at h
        split at h
        next =>
          cases h
          exact hclasses
        next => cases h

theorem grows_classFile? (name : String) : Growing tree (classpath.classFile? tree name) := by
  intro cache
  cases hl : cache.classes.lookup name with
  | some file =>
    rw [run_classFile?_of_kept hl]
    exact .refl tree cache
  | none =>
    cases ho : classpath.index.origin? name with
    | none =>
      rw [run_classFile?_of_unindexed hl ho]
      exact .refl tree cache
    | some origin =>
      have hgrows : cache.Grows tree ((readDefinition tree origin).run.run cache).2 :=
        grows_readDefinition origin cache
      have hclasses : ((readDefinition tree origin).run.run cache).2.classes = cache.classes :=
        classes_readDefinition origin
      rw [run_classFile?_of_fresh hl ho]
      generalize (readDefinition tree origin).run.run cache = after at hgrows hclasses
      obtain ⟨result, later⟩ := after
      cases result with
      | error error => exact hgrows
      | ok bytes =>
        dsimp only
        cases ClassFile.parse bytes with
        | error error => exact hgrows
        | ok file =>
          refine ⟨fun other stored h => ?_, hgrows.archives, hgrows.opened⟩
          have hne : (other == name) = false := by
            rw [beq_eq_false_iff_ne]
            rintro rfl
            cases hl.symm.trans h
          have hkept : later.classes.lookup other = some stored := by
            rw [hclasses]
            exact h
          rw [List.lookup_cons, hne]
          exact hkept

theorem grows_require (name : String) : Growing tree (classpath.require tree name) := by
  refine (grows_classFile? name).bind fun found => ?_
  cases found with
  | none => exact .throw _
  | some file => exact .pure file

theorem grows_implements (name capability : String) :
    Growing tree ((classpath.facts tree).implements name capability) := by
  refine (grows_require name).bind fun _ => ?_
  have hsupertypes : ∀ other, Growing tree ((classpath.hierarchy tree).supertypes other) := by
    intro other
    refine (grows_classFile? other).bind fun found => ?_
    cases found <;> exact .pure _
  refine (Hierarchy.searchFrom_growing hsupertypes capability [] none [name]).bind fun verdict => ?_
  cases verdict with
  | reached => exact .pure true
  | unreached => exact .pure false
  | unresolved other => exact .throw _

theorem grows_implementsAny (name : String) (capabilities : List String) :
    Growing tree ((classpath.facts tree).implementsAny name capabilities) := by
  induction capabilities with
  | nil => exact .pure false
  | cons capability others ih =>
    refine (grows_implements name capability).bind fun has => ?_
    cases has with
    | true => exact .pure true
    | false => exact ih

theorem grows_ask (classpath : Classpath) (tree : FileTree) (question : Question) :
    Growing tree (classpath.ask tree question) := by
  cases question with
  | classFile name => exact grows_classFile? name
  | implements name capability => exact grows_implements name capability
  | implementsAny name capabilities => exact grows_implementsAny name capabilities
  | kind name => exact (grows_require name).bind fun _ => .pure _
  | isAbstract name => exact (grows_require name).bind fun _ => .pure _
  | simpleName name => exact (grows_require name).bind fun _ => .pure _
  | field name field => exact (grows_require name).bind fun _ => .pure _

end Classpath

/-- A classpath in use: the files as they are now, what has been indexed, and what is remembered. -/
structure Session where
  files : FileTree
  classpath : Classpath
  cache : ClassCache

/-- What can happen in a session. Others may put other files in the place of those that are there. -/
inductive Session.Event where
  | ask (question : Question)
  | addRoot (root : String)
  | withPlatformTypes (table : List (String × List String))
  | withLeafTypes (types : List String)
  | change (files : FileTree)

namespace Session

variable {session later : Session}

def after (session : Session) : Event → Session
  | .ask question =>
    { session with cache := session.classpath.remember session.files session.cache question }
  | .addRoot root => { session with classpath := (session.classpath.addRoot session.files root).1 }
  | .withPlatformTypes table => { session with classpath := session.classpath.withPlatformTypes table }
  | .withLeafTypes types => { session with classpath := session.classpath.withLeafTypes types }
  | .change files => { session with files }

def afterAll (session : Session) (events : List Event) : Session :=
  events.foldl after session

def answer (session : Session) (question : Question) : Except QueryError question.Answer :=
  session.classpath.answer session.files session.cache question

def class? (session : Session) (name : String) : Option ClassFile :=
  session.cache.classes.lookup name

def archive? (session : Session) (path : String) : Option Archive :=
  session.cache.archives.lookup (Path.key path)

def origin? (session : Session) (name : String) : Option Origin :=
  session.classpath.index.origin? name

/-- What is indexed and remembered in the first session is so in the later one. -/
structure Keeps (session later : Session) : Prop where
  class? : ∀ name file, session.class? name = some file → later.class? name = some file
  archive? : ∀ path archive, session.archive? path = some archive → later.archive? path = some archive
  origin? : ∀ name origin, session.origin? name = some origin → later.origin? name = some origin

theorem Keeps.refl (session : Session) : session.Keeps session :=
  ⟨fun _ _ => id, fun _ _ => id, fun _ _ => id⟩

theorem Keeps.trans {middle : Session} (first : session.Keeps middle) (second : middle.Keeps later) :
    session.Keeps later where
  class? name file h := second.class? name file (first.class? name file h)
  archive? path archive h := second.archive? path archive (first.archive? path archive h)
  origin? name origin h := second.origin? name origin (first.origin? name origin h)

theorem origin?_addRoot {root name : String} {origin : Origin} (h : session.origin? name = some origin) :
    (session.after (.addRoot root)).origin? name = some origin := by
  have hindex : (session.after (.addRoot root)).origin? name =
      (session.origin? name <|> Candidate.firstNamed? (session.files.walk root).found name) :=
    TypeIndex.origin?_insertAll _ _ _
  rw [hindex, h]
  rfl

theorem keeps_after (session : Session) (event : Event) : session.Keeps (session.after event) := by
  cases event with
  | ask question =>
    have grows := session.classpath.grows_ask session.files question session.cache
    exact ⟨grows.classes, fun path => grows.archives (Path.key path), fun _ _ => id⟩
  | addRoot root => exact ⟨fun _ _ => id, fun _ _ => id, fun _ _ => origin?_addRoot⟩
  | _ => exact ⟨fun _ _ => id, fun _ _ => id, fun _ _ => id⟩

theorem keeps_afterAll (session : Session) (events : List Event) : session.Keeps (session.afterAll events) := by
  induction events generalizing session with
  | nil => exact .refl session
  | cons event events ih => exact (session.keeps_after event).trans (ih (session.after event))

/-- An archive that comes in is the one that the files hold at that time. -/
theorem openArchive_of_after {event : Event} {path : String} {archive : Archive}
    (hn : session.archive? path = none) (h : (session.after event).archive? path = some archive) :
    ∃ spelling, Path.key spelling = Path.key path ∧ session.files.openArchive spelling = .ok archive := by
  cases event with
  | ask question =>
    have grows := session.classpath.grows_ask session.files question session.cache
    rcases grows.opened (Path.key path) archive h with hkept | hopened
    · cases hn.symm.trans hkept
    · exact hopened
  | _ => cases hn.symm.trans h

def parsed (name : String) (read : Except QueryError (List UInt8)) : Except QueryError ClassFile :=
  read.bind fun bytes => (ClassFile.parse bytes).mapError (.malformed name)

/-- All questions about a type itself are answered by this class file, or all fail for want of it. -/
structure Tells (session : Session) (name : String) (outcome : Except QueryError ClassFile) : Prop where
  classFile : session.answer (.classFile name) = outcome.map some
  kind : session.answer (.kind name) = outcome.map Classpath.kindOf
  isAbstract : session.answer (.isAbstract name) = outcome.map (·.access.isAbstract)
  simpleName : session.answer (.simpleName name) = outcome.map (·.simpleName)
  field : ∀ field, session.answer (.field name field) = outcome.map (·.field? field)

theorem tells_of_answer {name : String} {outcome : Except QueryError ClassFile}
    (h : session.answer (.classFile name) = outcome.map some) : session.Tells name outcome := by
  have htell : ∀ {α : Type} (tell : ClassFile → α),
      ((do return tell (← session.classpath.require session.files name) :
        Query ClassCache α).run.run session.cache).1 = outcome.map tell := by
    intro α tell
    change ((session.classpath.classFile? session.files name).run.run session.cache).1 = _ at h
    rw [run_bind, Classpath.require, run_bind]
    generalize (session.classpath.classFile? session.files name).run.run session.cache = after at h
    obtain ⟨result, later⟩ := after
    cases h
    cases outcome <;> rfl
  exact ⟨h, htell _, htell _, htell _, fun field => htell (·.field? field)⟩

theorem tells_of_class? {name : String} {file : ClassFile} (h : session.class? name = some file) :
    session.Tells name (.ok file) :=
  tells_of_answer (congrArg Prod.fst (Classpath.run_classFile?_of_kept h))

theorem tells_of_fresh {name : String} {origin : Origin} (ho : session.origin? name = some origin)
    (hn : session.class? name = none) : session.Tells name
      (parsed name ((Classpath.readDefinition session.files origin).run.run session.cache).1) := by
  apply tells_of_answer
  rw [answer, Classpath.answer, Classpath.ask, Classpath.run_classFile?_of_fresh hn ho]
  generalize (Classpath.readDefinition session.files origin).run.run session.cache = after
  obtain ⟨result, later⟩ := after
  cases result with
  | error error => rfl
  | ok bytes =>
    dsimp only [parsed, Except.bind]
    cases ClassFile.parse bytes <;> rfl

/-- Entries that are asked for at a path are entries of this archive, and so are the definitions that are
indexed there and have not been read. -/
structure Serves (session : Session) (path : String) (archive : Archive) : Prop where
  entry : ∀ entry, (Classpath.readDefinition session.files (.entry path entry)).run.run session.cache =
    ((archive.read path entry).mapError .archive, session.cache)
  definition : ∀ name entry, session.origin? name = some (.entry path entry) → session.class? name = none →
    session.Tells name (parsed name ((archive.read path entry).mapError .archive))

theorem serves_of_archive? {path : String} {archive : Archive} (h : session.archive? path = some archive) :
    session.Serves path archive := by
  have hentry : ∀ entry,
      (Classpath.readDefinition session.files (.entry path entry)).run.run session.cache =
        ((archive.read path entry).mapError .archive, session.cache) := by
    intro entry
    rw [Classpath.run_readDefinition_entry, Classpath.run_openArchive_of_kept h]
  refine ⟨hentry, fun name entry ho hn => ?_⟩
  have htells := tells_of_fresh ho hn
  rw [hentry] at htells
  exact htells

/-- To look for a definition in an archive is to open the archive, whatever becomes of the entry. -/
theorem archive?_of_ask {name path entry : String} {archive : Archive}
    (ho : session.origin? name = some (.entry path entry)) (hc : session.class? name = none)
    (hn : session.archive? path = none) (hopen : session.files.openArchive path = .ok archive) :
    (session.after (.ask (.classFile name))).archive? path = some archive := by
  have hread : ((Classpath.readDefinition session.files (.entry path entry)).run.run
      session.cache).2.archives.lookup (Path.key path) = some archive := by
    rw [Classpath.run_readDefinition_entry, Classpath.run_openArchive_of_fresh hn, hopen]
    simp
  rw [after, archive?, Classpath.remember, Classpath.ask, Classpath.run_classFile?_of_fresh hc ho]
  generalize (Classpath.readDefinition session.files (.entry path entry)).run.run session.cache = read at hread
  obtain ⟨result, later⟩ := read
  cases result with
  | error error => exact hread
  | ok bytes =>
    dsimp only
    cases ClassFile.parse bytes <;> exact hread

/-- A type whose class file has been read is what that class file says, from then on. -/
theorem tells_of_read {name : String} {file : ClassFile}
    (h : session.answer (.classFile name) = .ok (some file)) (events : List Event) :
    ((session.after (.ask (.classFile name))).afterAll events).Tells name (.ok file) := by
  have hfirst : (session.after (.ask (.classFile name))).class? name = some file :=
    Classpath.lookup_classFile? (Prod.ext h rfl)
  exact tells_of_class? (((session.after _).keeps_afterAll events).class? name file hfirst)

/-- An archive that has come in serves what it holds, from then on. -/
theorem serves_of_kept {path : String} {archive : Archive} (h : session.archive? path = some archive)
    (events : List Event) : (session.afterAll events).Serves path archive :=
  serves_of_archive? ((session.keeps_afterAll events).archive? path archive h)

theorem tells_of_loose {name path : String} (ho : session.origin? name = some (.file path))
    (hn : session.class? name = none) : session.Tells name
      (parsed name ((session.files.readBytes path).mapError (.unreadable path))) := by
  have htells := tells_of_fresh ho hn
  rw [Classpath.run_readDefinition_file] at htells
  exact htells

/-- What has been read stays as it was read, whatever happens afterwards. A class file that was had once
answers all questions about its type. An archive that comes in is what the files held at that time, it does
come in when a definition is looked for in it, and it serves all entries. A class file that could not be had
leaves the remembered ones as they are, and is looked for again as long as it is not remembered. -/
theorem kept_of_session (session : Session) (events : List Event) :
    (∀ name file, session.answer (.classFile name) = .ok (some file) →
      ((session.after (.ask (.classFile name))).afterAll events).Tells name (.ok file)) ∧
    (∀ event path archive, session.archive? path = none → (session.after event).archive? path = some archive →
      (∃ spelling, Path.key spelling = Path.key path ∧ session.files.openArchive spelling = .ok archive) ∧
        ((session.after event).afterAll events).Serves path archive) ∧
    (∀ name path entry archive, session.origin? name = some (.entry path entry) →
      session.class? name = none → session.archive? path = none →
        session.files.openArchive path = .ok archive →
          ((session.after (.ask (.classFile name))).afterAll events).Serves path archive) ∧
    (∀ name error, session.answer (.classFile name) = .error error →
      (session.after (.ask (.classFile name))).cache.classes = session.cache.classes ∧
        ∀ path, session.origin? name = some (.file path) →
          ∀ later, later = (session.after (.ask (.classFile name))).afterAll events →
            later.class? name = none → later.Tells name
              (parsed name ((later.files.readBytes path).mapError (.unreadable path)))) := by
  refine ⟨fun name file h => tells_of_read h events, ?_, ?_, ?_⟩
  · intro event path archive hn h
    exact ⟨openArchive_of_after hn h, serves_of_kept h events⟩
  · intro name path entry archive ho hc hn hopen
    exact serves_of_kept (archive?_of_ask ho hc hn hopen) events
  · intro name error h
    have hclasses := (Classpath.classes_of_classFile?_error (Prod.ext h rfl)).2
    refine ⟨hclasses, ?_⟩
    rintro path ho later rfl hn
    have hkept := (session.keeps_after (.ask (.classFile name))).trans
      ((session.after (.ask (.classFile name))).keeps_afterAll events)
    exact tells_of_loose (hkept.origin? name _ ho) hn

/-- Two classes, an archive and a file that is no class file. -/
def unmendedFiles : FileTree :=
  Classpath.archiveTree.put ["E.class", "lib"] (.file (.bytes []))

/-- The file has been replaced, and all else is gone. -/
def mendedFiles : FileTree :=
  .ofFiles "lib" [("E.class", ClassFile.plainBytes "E" "A" [])]

theorem kept_of_mendedFiles :
    let session : Session := ⟨unmendedFiles, (Classpath.empty.addRoot unmendedFiles "lib").1, .empty⟩
    let events := [Event.ask (.implements "A" "B"), .change mendedFiles, .addRoot "lib"]
    (∃ file, session.answer (.classFile "A") = .ok (some file) ∧
      ((session.after (.ask (.classFile "A"))).afterAll events).Tells "A" (.ok file)) ∧
    (∃ archive, unmendedFiles.openArchive "lib/c.jar" = .ok archive ∧
      (session.answer (.classFile "D")).toOption = none ∧
      ((session.after (.ask (.classFile "D"))).afterAll events).Serves "lib/c.jar" archive) ∧
    (session.answer (.classFile "E")).toOption = none ∧
      (((session.after (.ask (.classFile "E"))).afterAll events).answer (.classFile "E")).toOption.isSome = true := by
  intro session events
  have kept := kept_of_session session events
  refine ⟨?_, ?_, by decide +kernel, ?_⟩
  · have hread : ((session.answer (.classFile "A")).toOption.bind id).isSome = true := by decide +kernel
    obtain ⟨file, hf⟩ := Option.isSome_iff_exists.1 hread
    obtain ⟨found, hfound, rfl⟩ := Option.bind_eq_some_iff.1 hf
    have hanswer := Except.toOption_eq_some_iff.1 hfound
    exact ⟨file, hanswer, kept.1 "A" file hanswer⟩
  · have hopened : (unmendedFiles.openArchive "lib/c.jar").toOption.isSome = true := by decide +kernel
    obtain ⟨archive, hopen⟩ := Except.isSome_toOption_iff.1 hopened
    have horigin : session.origin? "D" = some (.entry "lib/c.jar" "D.class") := by decide +kernel
    exact ⟨archive, hopen, by decide +kernel, kept.2.2.1 "D" _ _ archive horigin rfl rfl hopen⟩
  · have hfailed : ∃ error, session.answer (.classFile "E") = .error error := by
      have hnone : (session.answer (.classFile "E")).toOption = none := by decide +kernel
      cases h : session.answer (.classFile "E") with
      | ok found => simp [h, Except.toOption] at hnone
      | error error => exact ⟨error, rfl⟩
    obtain ⟨error, he⟩ := hfailed
    have horigin : session.origin? "E" = some (.file "lib/E.class") := by decide +kernel
    have htells := (kept.2.2.2 "E" error he).2 _ horigin _ rfl (by decide +kernel)
    rw [htells.classFile]
    decide +kernel

end Session

end SerialManifest

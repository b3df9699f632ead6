import SerialManifest.Proofs.FixedAnswers
import SerialManifest.Proofs.WalkFindings

namespace SerialManifest

variable {ε α : Type} {m : Type → Type} [Monad m]

namespace FileTree

section InPlace

variable (tree : FileTree) (raise : WalkError → ε) (take : α → Candidate → ExceptT ε m α)

/-- Hands over the definitions in the archive at a path, entry by entry. -/
def visitArchive (path : String) (start : α) : ExceptT ε m α :=
  match tree.openArchive path with
  | .error error => throw (raise (.archive error))
  | .ok archive =>
    let visitEntry (last : α) (name : String) : ExceptT ε m α :=
      if Archive.isDirectoryName name then return last
      else match Candidate.typeName? name with
        | some typeName => take last ⟨typeName, .entry path name⟩
        | none => return last
    archive.names.foldlM visitEntry start

def visitFile (root path : String) (start : α) : ExceptT ε m α :=
  if Candidate.isDefinitionName path then
    match Candidate.typeName? (Path.relative root path) with
    | some name => take start ⟨name, .file path⟩
    | none => return start
  else return start

/-- The walk in place from a path that has led to `reached`, below a root, `entered` being the directories in
which the walk already is. -/
def visitFrom (root path : String) (reached : Except FileFault Standing)
    (entered : List Entry) (start : α) : ExceptT ε m α :=
  match reached with
  | .error .notFound => throw (raise (.notFound path))
  | .error fault => throw (raise (.unreadable path fault))
  | .ok here =>
    if _ : tree.isDirectory here.place then
      if !here.spelt then throw (raise (.unreadable path .nameTooLong))
      else if _ : Entry.anyAt entered here.place then throw (raise (.cycle path))
      else
        let visitChild (last : α) (name : String) :=
          let below := Path.join path name
          visitFrom root below (tree.reachChild here below name)
            (.of here.place .directory :: entered) last
        (tree.children here.place).foldlM visitChild start
    else if Archive.isArchiveName path then tree.visitArchive raise take path start
    else visitFile take root path start
termination_by (tree.unentered (entered.map Entry.place)).length
decreasing_by exact unentered_cons_lt ‹_› (mt Entry.anyAt_iff.2 ‹_›)

/-- The walk in place from a root. -/
def visit (root : String) (start : α) : ExceptT ε m α :=
  tree.visitFrom raise take root root (tree.reach root) [] start

end InPlace

end FileTree

section Lawful

variable [LawfulMonad m] {raise : WalkError → ε} {take : α → Candidate → ExceptT ε m α}

namespace Walk

@[simp] theorem foldM_failed (error : WalkError) (start : α) :
    (failed error).foldM raise take start = throw (raise error) := by
  simp [foldM, failed]

@[simp] theorem foldM_of (found : List Candidate) (start : α) :
    (of found).foldM raise take start = found.foldlM take start := by
  simp [foldM, of]

/-- What the first walk has found is handed over before the others begin. -/
theorem foldM_each (walk : String → Walk) (names : List String) (start : α) :
    (each walk names).foldM raise take start =
      names.foldlM (fun last name => (walk name).foldM raise take last) start := by
  induction names generalizing start with
  | nil => simp
  | cons name names ih =>
    rw [List.foldlM_cons]
    simp only [← ih]
    cases hf : (walk name).failure with
    | some error => simp [each_cons_of_failure hf, foldM, hf]
    | none => simp [each_cons_of_success hf, foldM, hf]

end Walk

namespace FileTree

variable (tree : FileTree)

theorem visitArchive_eq_foldM (path : String) (start : α) :
    tree.visitArchive raise take path start = (tree.walkArchive path).foldM raise take start := by
  unfold visitArchive walkArchive
  cases tree.openArchive path with
  | error error => rw [Walk.foldM_failed]
  | ok archive =>
    dsimp only
    rw [Walk.foldM_of, List.foldlM_filterMap, List.foldlM_filter]
    congr 1
    funext last name
    cases Archive.isDirectoryName name <;> cases Candidate.typeName? name <;> rfl

theorem visitFile_eq_foldM (root path : String) (start : α) :
    visitFile take root path start = (walkFile root path).foldM raise take start := by
  unfold visitFile walkFile
  split
  · cases Candidate.typeName? (Path.relative root path) <;> simp
  · simp

/-- Handing over each definition at once comes to handing over all of them behind the walk. -/
theorem visitFrom_eq_foldM (root path : String) (reached : Except FileFault Standing)
    (entered : List Entry) (start : α) :
    tree.visitFrom raise take root path reached entered start =
      (tree.walkFrom root path reached entered).foldM raise take start := by
  induction path, reached, entered using walkFrom.induct tree root generalizing start with
  | case1 path entered => simp [visitFrom, walkFrom]
  | case2 path entered fault hf =>
    rw [visitFrom.eq_2 _ _ _ _ _ _ _ _ hf, walkFrom.eq_2 _ _ _ _ _ hf, Walk.foldM_failed]
  | case3 path entered here hd hs =>
    rw [walkFrom_of_unspelt hd (by simpa using hs), visitFrom, dif_pos hd, if_pos hs, Walk.foldM_failed]
  | case4 path entered here hd hs hc =>
    rw [walkFrom_of_cycle hd (by simpa using hs) hc, visitFrom, dif_pos hd, if_neg hs, dif_pos hc,
      Walk.foldM_failed]
  | case5 path entered here hd hs hc ih =>
    rw [walkFrom_of_directory hd (by simpa using hs) hc, visitFrom, dif_pos hd, if_neg hs, dif_neg hc,
      Walk.foldM_each]
    simp only [ih]
    rfl
  | case6 path entered here hd ha =>
    rw [walkFrom_of_archive hd ha, visitFrom, dif_neg hd, if_pos ha, visitArchive_eq_foldM]
  | case7 path entered here hd ha =>
    rw [walkFrom_of_file hd ha, visitFrom, dif_neg hd, if_neg ha, visitFile_eq_foldM]

theorem visit_eq_foldM (root : String) (start : α) :
    tree.visit raise take root start = (tree.walk root).foldM raise take start :=
  tree.visitFrom_eq_foldM root root (tree.reach root) [] start

end FileTree

end Lawful

/-- Whoever is handed definitions answers each of them in view of those before it. -/
abbrev Visitor (ε : Type) := List Candidate → Candidate → Except ε Unit

namespace Visitor

def call (visitor : Visitor ε) (_ : Unit) (candidate : Candidate) :
    ExceptT ε (StateM (List Candidate)) Unit :=
  ExceptT.mk do
    let before ← get
    set (before ++ [candidate])
    return visitor before candidate

def accepting : Visitor ε := fun _ _ => .ok ()

def stopping (n : Nat) (error : ε) : Visitor ε :=
  fun before _ => if before.length + 1 = n then .error error else .ok ()

/-- The visitor accepts every definition before the `n`-th that it is handed. -/
def AcceptsBefore (visitor : Visitor ε) (n : Nat) : Prop :=
  ∀ before candidate, before.length + 1 < n → visitor before candidate = .ok ()

/-- The visitor answers the `n`-th definition with an error, and none before. -/
structure StopsAt (visitor : Visitor ε) (n : Nat) (error : ε) : Prop where
  pos : 0 < n
  accepts : visitor.AcceptsBefore n
  stops : ∀ before candidate, before.length + 1 = n → visitor before candidate = .error error

variable {visitor : Visitor ε} {n : Nat} {error : ε} {found before : List Candidate}

theorem run_call (visitor : Visitor ε) (before : List Candidate) (candidate : Candidate) :
    (visitor.call () candidate).run.run before = (visitor before candidate, before ++ [candidate]) :=
  rfl

theorem acceptsBefore_accepting (n : Nat) : (accepting : Visitor ε).AcceptsBefore n :=
  fun _ _ _ => rfl

theorem stopsAt_stopping {n : Nat} (pos : 0 < n) (error : ε) : (stopping n error).StopsAt n error where
  pos
  accepts _ _ hlt := if_neg (Nat.ne_of_lt hlt)
  stops _ _ he := if_pos he

/-- Where there are fewer definitions than it takes to stop the visitor it is handed them all. -/
theorem AcceptsBefore.run (accepts : visitor.AcceptsBefore n) (hn : before.length + found.length < n) :
    (found.foldlM visitor.call ()).run.run before = (.ok (), before ++ found) := by
  induction found generalizing before with
  | nil =>
    rw [List.append_nil]
    rfl
  | cons candidate found ih =>
    rw [List.length_cons] at hn
    have hcall := run_call visitor before candidate
    rw [accepts before candidate (by omega)] at hcall
    rw [List.foldlM_cons, run_bind_of_ok hcall, ih (by simp; omega), List.append_assoc, List.singleton_append]

theorem StopsAt.run (stops : visitor.StopsAt n error) (hn : n ≤ found.length) :
    (found.foldlM visitor.call ()).run.run [] = (.error error, found.take n) := by
  obtain ⟨k, rfl⟩ := Nat.exists_eq_add_one.2 stops.pos
  -- those that are accepted, the one that stops the visitor, and those that it never sees
  obtain ⟨first, candidate, others, rfl, rfl⟩ : ∃ first candidate others,
      found = first ++ candidate :: others ∧ first.length = k :=
    ⟨found.take k, found[k], found.drop (k + 1), by simp, by simp; omega⟩
  have hbefore : (first.foldlM visitor.call ()).run.run [] = (.ok (), [] ++ first) :=
    stops.accepts.run (by simp)
  have hcall := run_call visitor first candidate
  rw [stops.stops first candidate rfl] at hcall
  rw [List.foldlM_append, run_bind_of_ok hbefore, List.foldlM_cons, List.nil_append, run_bind_of_error hcall]
  simp [List.take_append, List.take_of_length_le]

end Visitor

def Walk.ended (raise : WalkError → ε) (walk : Walk) : Except ε Unit :=
  match walk.failure with
  | none => .ok ()
  | some error => .error (raise error)

namespace FileTree

/-- How the walk in place ends for a visitor, and what the visitor has been handed by then. -/
def visited (tree : FileTree) (raise : WalkError → ε) (visitor : Visitor ε) (root : String) :
    Except ε Unit × List Candidate :=
  (tree.visit raise visitor.call root ()).run.run []

variable {tree : FileTree} {raise : WalkError → ε} {visitor : Visitor ε} {root : String} {n : Nat} {error : ε}

theorem visited_eq : tree.visited raise visitor root =
    match ((tree.walk root).found.foldlM visitor.call ()).run.run [] with
    | (.ok (), seen) => ((tree.walk root).ended raise, seen)
    | (.error error, seen) => (.error error, seen) := by
  rw [visited, visit_eq_foldM, Walk.foldM, run_bind]
  generalize ((tree.walk root).found.foldlM visitor.call ()).run.run [] = after
  obtain ⟨outcome, seen⟩ := after
  cases outcome with
  | error error => rfl
  | ok _ =>
    unfold Walk.ended
    cases (tree.walk root).failure <;> rfl

theorem visited_of_acceptsBefore (accepts : visitor.AcceptsBefore n) (hn : (tree.walk root).found.length < n) :
    tree.visited raise visitor root = ((tree.walk root).ended raise, (tree.walk root).found) := by
  rw [visited_eq, accepts.run (by simpa using hn)]
  rfl

/-- A visitor that stops a walk. With a visitor that accepts everything the walk comes to the definitions that it
finds and ends as it ends by itself. If there are as many of them as it takes to stop the visitor, it is handed
the first of them, each once and in the same order, and then the walk ends with its error and nothing else. If
there are fewer of them, it is handed them all, and the walk ends as it does with the accepting visitor. -/
theorem visited_of_stopsAt (stops : visitor.StopsAt n error) (tree : FileTree) (raise : WalkError → ε)
    (root : String) :
    let accepted := tree.visited raise .accepting root
    accepted = ((tree.walk root).ended raise, (tree.walk root).found) ∧
    (n ≤ accepted.2.length → tree.visited raise visitor root = (.error error, accepted.2.take n)) ∧
    (accepted.2.length < n → tree.visited raise visitor root = accepted) := by
  intro accepted
  have haccepted : accepted = ((tree.walk root).ended raise, (tree.walk root).found) :=
    visited_of_acceptsBefore (Visitor.acceptsBefore_accepting _) (Nat.lt_succ_self _)
  rw [haccepted]
  refine ⟨rfl, fun hn => ?_, visited_of_acceptsBefore stops.accepts⟩
  rw [visited_eq, stops.run hn]

/-- Three definitions, two directories down and beside them, before a file that is no archive. -/
def brokenTree : FileTree :=
  mixedTree.put ["z.jar", "lib"] (.file (.bytes []))

/-- A visitor that stops the walk at its last definition never hears of the failure behind it, but one that
would have stopped it at the next one does. -/
theorem visited_of_brokenTree :
    let stop : WalkError := .notFound "stopped"
    let found : List Candidate := [⟨"p.B", .entry "lib/a.jar/A.class/c.Zip" "p/B.class"⟩,
      ⟨"C", .file "lib/C.CLASS"⟩, ⟨"D", .file "lib/D.class"⟩]
    ((Visitor.stopping 2 stop).StopsAt 2 stop ∧
      brokenTree.visited id (.stopping 2 stop) "lib" = (.error stop, found.take 2)) ∧
    ((Visitor.stopping 3 stop).StopsAt 3 stop ∧
      brokenTree.visited id (.stopping 3 stop) "lib" = (.error stop, found)) ∧
    (Visitor.stopping 4 stop).StopsAt 4 stop ∧
      brokenTree.visited id (.stopping 4 stop) "lib" =
        (.error (.archive (.corrupt "lib/z.jar" .noDirectory)), found) := by
  intro stop found
  have hwalk : brokenTree.walk "lib" = ⟨found, some (.archive (.corrupt "lib/z.jar" .noDirectory))⟩ := by
    decide +kernel
  have second := Visitor.stopsAt_stopping (by decide : 0 < 2) stop
  have third := Visitor.stopsAt_stopping (by decide : 0 < 3) stop
  have fourth := Visitor.stopsAt_stopping (by decide : 0 < 4) stop
  obtain ⟨haccepted, hsecond, _⟩ := visited_of_stopsAt second brokenTree id "lib"
  obtain ⟨_, hthird, _⟩ := visited_of_stopsAt third brokenTree id "lib"
  obtain ⟨_, _, hfourth⟩ := visited_of_stopsAt fourth brokenTree id "lib"
  rw [haccepted, hwalk] at hsecond hthird hfourth
  exact ⟨⟨second, hsecond (by decide)⟩, ⟨third, hthird (by decide)⟩, fourth, hfourth (by decide)⟩

end FileTree

end SerialManifest

import SerialManifest.FileTree.Basic
import SerialManifest.FileTree.Path

namespace SerialManifest

/-- One step of a path. `closing` is the slash at the end, which asks for a directory. -/
inductive Step where
  | stay
  | up
  | child (name : String)
  | closing
deriving DecidableEq, Repr

def Step.ofSegment (segment : List Char) : Step :=
  if segment = ['.'] then .stay
  else if segment = ['.', '.'] then .up
  else .child (String.ofList segment)

structure Route where
  absolute : Bool
  steps : List Step
deriving DecidableEq, Repr

def Route.ofText (text : String) : Route :=
  let pieces := Text.split '/' text.toList
  { absolute := Path.isAbsolute text
    steps := (pieces.filter (· != [])).map Step.ofSegment ++
      if 1 < pieces.length ∧ pieces.getLast? = some [] then [.closing] else [] }

/-- What to do when the last name of a path stands for nothing. -/
inductive Missing where
  | refuse
  | allow
deriving DecidableEq, Repr

def longestName : Nat := 255

def longestPath : Nat := 4095

def linkLimit : Nat := 40

/-- The length of the path from the root to a place, in bytes. -/
def fullLength : Location → Nat
  | [] => 0
  | name :: outer => fullLength outer + 1 + name.utf8ByteSize

def fullPath (place : Location) : String :=
  "/" ++ String.ofList (Text.join '/' (place.reverse.map String.toList))

/-- Where a path has led: to a place, with a number of links that may still be followed. It is `spelt` if
no place on the way has a full path too long to be looked up. -/
structure Standing where
  place : Location
  links : Nat
  spelt : Bool
deriving DecidableEq, Repr

namespace Standing

def fresh (place : Location) : Standing :=
  ⟨place, linkLimit, true⟩

def child (here : Standing) (name : String) : Standing :=
  { here with
    place := name :: here.place
    spelt := here.spelt && fullLength (name :: here.place) ≤ longestPath }

/-- Where the target of the link at a name starts from. -/
def link (here : Standing) (name : String) (route : Route) : Standing :=
  { here.child name with
    place := if route.absolute then [] else here.place
    links := here.links - 1 }

end Standing

def Content.asArchive (path : String) : Content → Except ArchiveError Archive
  | .archive stored => .ok stored
  | .bytes _ => .error (.corrupt path .noDirectory)
  | .refused false fault => .error (.unreadable path (.file fault))
  | .refused true _ => .error (.corrupt path .notAFile)

@[simp] theorem Content.asArchive_eq_ok_iff {content : Content} {path : String} {archive : Archive} :
    content.asArchive path = .ok archive ↔ content = .archive archive := by
  cases content with
  | bytes data => simp [asArchive]
  | archive stored => simp [asArchive]
  | refused opens fault => cases opens <;> simp [asArchive]

namespace FileTree

/-- Takes steps from where a path has led; `jump` continues behind a link. -/
def advance (tree : FileTree) (missing : Missing)
    (jump : Standing → List Step → Except FileFault Standing) :
    Standing → List Step → Except FileFault Standing
  | here, [] => .ok here
  | here, step :: rest =>
    if tree.isDirectory here.place then
      match step with
      | .stay | .closing => advance tree missing jump here rest
      | .up => advance tree missing jump { here with place := here.place.tail } rest
      | .child name =>
        if missing = .allow ∧ rest = [.closing] then .error .isADirectory
        else if longestName < name.utf8ByteSize then .error .nameTooLong
        else match tree.node? (name :: here.place) with
          | none => if missing = .allow ∧ rest = [] then .ok (here.child name) else .error .notFound
          | some (.link target) =>
            let route := Route.ofText target
            jump (here.link name route) (route.steps ++ rest)
          | some _ => advance tree missing jump (here.child name) rest
    else .error .notADirectory

def follow (tree : FileTree) (missing : Missing) :
    (links : Nat) → Standing → List Step → Except FileFault Standing
  | 0 => advance tree missing fun _ _ => .error .tooManyLinks
  | links + 1 => advance tree missing (follow tree missing links)

/-- Takes steps from where a path has led, all of which have to lead to something. -/
def onward (tree : FileTree) (here : Standing) (steps : List Step) : Except FileFault Standing :=
  tree.follow .refuse here.links here steps

def start (tree : FileTree) (route : Route) : Standing :=
  .fresh (if route.absolute then [] else tree.current)

/-- A path as a route; the empty path leads nowhere, a long one is refused, and a NUL cannot be part of a
name. -/
def route (path : String) : Except FileFault Route :=
  if path.toList.contains '\x00' then .error .nulInName
  else if longestPath < path.utf8ByteSize then .error .nameTooLong
  else if path == "" then .error .notFound
  else .ok (Route.ofText path)

def reach (tree : FileTree) (path : String) : Except FileFault Standing := do
  let route ← route path
  tree.onward (tree.start route) route.steps

/-- Where a path leads that goes one name beyond another path, which has led to `here`. -/
def reachChild (tree : FileTree) (here : Standing) (path name : String) : Except FileFault Standing :=
  if longestPath < path.utf8ByteSize then .error .nameTooLong
  else tree.onward here [.child name]

def resolve (tree : FileTree) (path : String) : Except FileFault Location :=
  (tree.reach path).map (·.place)

/-- Why what stands at a place cannot be written into, or why no file can be created there. -/
def refusal? (tree : FileTree) (place : Location) : Option FileFault :=
  match tree.node? place with
  | some .directory => some .isADirectory
  | some (.file content) => content.refusal?
  | some (.link _) => none
  | none => tree.disk.creating place.tail

/-- The place of the file that writing to a path changes or creates. -/
def resolveForWriting (tree : FileTree) (path : String) : Except FileFault Location := do
  let route ← route path
  let here ← tree.follow .allow linkLimit (tree.start route) route.steps
  match tree.refusal? here.place with
  | some fault => .error fault
  | none => .ok here.place

def contentAt (tree : FileTree) (place : Location) : Except FileFault Content :=
  match tree.node? place with
  | some (.file content) => .ok content
  | some .directory => .error .isADirectory
  | _ => .error .notFound

def readBytes (tree : FileTree) (path : String) : Except FileFault (List UInt8) := do
  let place ← tree.resolve path
  let content ← tree.contentAt place
  content.read

def openArchive (tree : FileTree) (path : String) : Except ArchiveError Archive :=
  match tree.resolve path with
  | .error fault => .error (.unreadable path (.file fault))
  | .ok place =>
    match tree.contentAt place with
    | .ok content => content.asArchive path
    | .error _ => .error (.corrupt path .notAFile)

/-- Steps can be taken in two parts, the last name of the first part always standing for something. -/
theorem advance_append {tree : FileTree} {missing : Missing}
    {jump jump' : Standing → List Step → Except FileFault Standing}
    {after : Standing → Except FileFault Standing} {steps more : List Step} {links : Nat}
    (hm : missing = .allow → more ≠ [] ∧ more ≠ [.closing])
    (ha : ∀ here, here.links = links → tree.advance missing jump' here more = after here)
    (hj : ∀ here steps, here.links = links - 1 → jump' here (steps ++ more) = (jump here steps).bind after)
    {here : Standing} (h : here.links = links) :
    tree.advance missing jump' here (steps ++ more) =
      (tree.advance .refuse jump here steps).bind after := by
  induction steps generalizing here with
  | nil => exact ha here h
  | cons step rest ih =>
    rw [List.cons_append]
    unfold advance
    by_cases hd : tree.isDirectory here.place = true
    · rw [if_pos hd, if_pos hd]
      cases step with
      | stay => exact ih h
      | closing => exact ih h
      | up => exact ih h
      | child name =>
        have hclosing : ¬ (missing = .allow ∧ rest ++ more = [.closing]) := by
          rintro ⟨hallow, he⟩
          obtain ⟨hne, hnot⟩ := hm hallow
          rcases List.append_eq_singleton_iff.1 he with ⟨_, he⟩ | ⟨_, he⟩
          · exact hnot he
          · exact hne he
        have hnil : ¬ (missing = .allow ∧ rest ++ more = []) := fun ⟨hallow, he⟩ =>
          (hm hallow).1 (List.append_eq_nil_iff.1 he).2
        simp only [hclosing, hnil, reduceCtorEq, false_and, ↓reduceIte]
        by_cases hl : longestName < name.utf8ByteSize
        · rw [if_pos hl, if_pos hl]; rfl
        · rw [if_neg hl, if_neg hl]
          cases tree.node? (name :: here.place) with
          | none => rfl
          | some node =>
            cases node with
            | directory => exact ih h
            | file content => exact ih h
            | link target =>
              simp only [← List.append_assoc]
              exact hj _ _ (by simp [Standing.link, h])
    · rw [if_neg hd, if_neg hd]; rfl

theorem follow_append {tree : FileTree} {links : Nat} {here : Standing} {steps more : List Step}
    (h : here.links = links) :
    tree.follow .refuse links here (steps ++ more) =
      (tree.follow .refuse links here steps).bind (tree.onward · more) := by
  induction links generalizing here steps with
  | zero =>
    refine advance_append (by simp) (fun there ht => ?_) (fun _ _ _ => rfl) h
    rw [onward, ht]; rfl
  | succ links ih =>
    refine advance_append (by simp) (fun there ht => ?_) (fun there steps ht => ih ht) h
    rw [onward, ht]; rfl

theorem onward_append (tree : FileTree) (here : Standing) (steps more : List Step) :
    tree.onward here (steps ++ more) = (tree.onward here steps).bind (tree.onward · more) :=
  follow_append rfl

end FileTree

end SerialManifest

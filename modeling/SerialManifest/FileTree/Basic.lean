import SerialManifest.Archive.Encoding

namespace SerialManifest

/-- A place in the tree: the names leading to it, innermost first. The root is the empty list. -/
abbrev Location := List String

/-- What a file holds. A file may also be there and refuse to be read, for its permissions or for what it is;
some of these can at least be opened. Just these refuse to be written into as well. -/
inductive Content where
  | bytes (data : List UInt8)
  | archive (stored : Archive)
  | refused (opens : Bool) (fault : FileFault)
deriving DecidableEq, Repr

inductive Node where
  | directory
  | file (content : Content)
  | link (target : String)
deriving DecidableEq, Repr

namespace Content

/-- A file as plain bytes, none of which can be had from one that refuses to be read. -/
def data : Content → List UInt8
  | .bytes data => data
  | .archive stored => stored.encode
  | .refused _ _ => []

/-- Why a file can be neither read nor written into. -/
def refusal? : Content → Option FileFault
  | .refused _ fault => some fault
  | _ => none

def read (content : Content) : Except FileFault (List UInt8) :=
  match content.refusal? with
  | some fault => .error fault
  | none => .ok content.data

end Content

/-- A place and what stands there. Where one file goes by several names (hard links), their entries share a
number. The number of names that lead to a place sets it apart from most others without a look at the names. -/
structure Entry where
  place : Location
  node : Node
  shared : Option Nat
  depth : Nat
  depth_eq : depth = place.length

namespace Entry

/-- What goes by no other name. -/
def of (place : Location) (node : Node) : Entry :=
  ⟨place, node, none, place.length, rfl⟩

def isAt (entry : Entry) (place : Location) (depth : Nat) : Bool :=
  entry.depth == depth && entry.place == place

def anyAt (entries : List Entry) (place : Location) : Bool :=
  let depth := place.length
  entries.any (·.isAt place depth)

def renew (new old : Entry) : Entry :=
  if old.isAt new.place new.depth then new else old

def isNameOf (second first : Entry) : Bool :=
  match first.node, first.shared with
  | .file _, some _ => second.shared == first.shared && second.node == first.node
  | _, _ => false

/-- The second entry, with something else in it if it is the first one or another name of its file. -/
def fill (content : Content) (first second : Entry) : Entry :=
  if second.isAt first.place first.depth || second.isNameOf first then { second with node := .file content }
  else second

def childName? (entry : Entry) (place : Location) (depth : Nat) : Option String :=
  if entry.depth = depth + 1 then
    match entry.place with
    | [] => none
    | name :: outer => if outer = place then some name else none
  else none

theorem isAt_iff {entry : Entry} {place : Location} :
    entry.isAt place place.length = true ↔ entry.place = place := by
  simp only [isAt, Bool.and_eq_true, beq_iff_eq, and_iff_right_iff_imp]
  rintro rfl
  exact entry.depth_eq

theorem anyAt_iff {entries : List Entry} {place : Location} :
    anyAt entries place = true ↔ place ∈ entries.map Entry.place := by
  simp [anyAt, isAt_iff]

theorem place_renew (new old : Entry) : (renew new old).place = old.place := by
  unfold renew
  split
  next h => exact (isAt_iff.1 (new.depth_eq ▸ h)).symm
  next => rfl

theorem map_place_renew (new : Entry) (entries : List Entry) :
    (entries.map new.renew).map place = entries.map place := by
  rw [List.map_map]
  exact List.map_congr_left fun old _ => place_renew new old

theorem map_place_fill (content : Content) (first : Entry) (entries : List Entry) :
    (entries.map (first.fill content)).map place = entries.map place := by
  rw [List.map_map]
  refine List.map_congr_left fun second _ => ?_
  simp only [Function.comp_apply, fill]
  split <;> rfl

theorem childName?_eq_some_iff {entry : Entry} {place : Location} {name : String} :
    entry.childName? place place.length = some name ↔ entry.place = name :: place := by
  have hd := entry.depth_eq
  unfold childName?
  cases hp : entry.place with
  | nil => simp
  | cons first outer =>
    rw [hp, List.length_cons] at hd
    by_cases ho : outer = place
    · simp [ho, hd]
    · simp [ho]

end Entry

/-- For what fault nothing new can be created in a directory, and for what fault a new file there cannot be
filled with some bytes, if there is one. A directory that is there is not said to be missing. -/
structure Disk where
  creating : Location → Option FileFault
  filling : Location → List UInt8 → Option FileFault
  creating_ne : ∀ place, creating place ≠ some .notFound

def Disk.willing : Disk :=
  ⟨fun _ => none, fun _ _ => none, nofun⟩

/-- A tree of directories, files and links, in the order in which directories show them, with the directory
from which relative paths start and the disk on which the tree lies. -/
structure FileTree where
  entries : List Entry
  current : Location
  distinct : (entries.map Entry.place).Nodup
  disk : Disk := .willing

namespace FileTree

def entryAt? (tree : FileTree) (place : Location) : Option Entry :=
  let depth := place.length
  tree.entries.find? (·.isAt place depth)

def node? (tree : FileTree) : Location → Option Node
  | [] => some .directory
  | place => (tree.entryAt? place).map Entry.node

/-- The number that the names of a file share, if it has several. -/
def sharedAt? (tree : FileTree) (place : Location) : Option Nat :=
  (tree.entryAt? place).bind Entry.shared

/-- Two places are names of one file. -/
def OneFile (tree : FileTree) (first second : Location) : Prop :=
  first = second ∨ ∃ number content, tree.sharedAt? first = some number ∧ tree.sharedAt? second = some number ∧
    tree.node? first = some (.file content) ∧ tree.node? second = some (.file content)

def isDirectory (tree : FileTree) (place : Location) : Bool :=
  tree.node? place == some .directory

def directories (tree : FileTree) : List Location :=
  [] :: (tree.entries.filter (·.node == .directory)).map Entry.place

/-- The names that a directory shows, in its order. -/
def children (tree : FileTree) (place : Location) : List String :=
  let depth := place.length
  tree.entries.filterMap (·.childName? place depth)

theorem entryAt?_eq_some_iff {tree : FileTree} {place : Location} {entry : Entry} :
    tree.entryAt? place = some entry ↔ entry ∈ tree.entries ∧ entry.place = place := by
  constructor
  · intro h
    rw [entryAt?] at h
    exact ⟨List.mem_of_find?_eq_some h, Entry.isAt_iff.1 (by simpa using List.find?_some h)⟩
  · rintro ⟨hm, hp⟩
    obtain ⟨l, r, he⟩ := List.append_of_mem hm
    rw [entryAt?, List.find?_eq_some_iff_append]
    refine ⟨Entry.isAt_iff.2 hp, l, r, he, ?_⟩
    intro other ho
    have hd := tree.distinct
    rw [he, List.map_append, List.map_cons] at hd
    have hn := (List.nodup_append.1 hd).2.2 other.place (List.mem_map_of_mem ho) entry.place (by simp)
    simpa using fun h => hn ((Entry.isAt_iff.1 h).trans hp.symm)

theorem entryAt?_eq_none_iff {tree : FileTree} {place : Location} :
    tree.entryAt? place = none ↔ place ∉ tree.entries.map Entry.place := by
  simp [entryAt?, List.find?_eq_none, Entry.isAt_iff]

theorem node?_eq_some_iff {tree : FileTree} {place : Location} {node : Node} (h : place ≠ []) :
    tree.node? place = some node ↔ ∃ entry ∈ tree.entries, entry.place = place ∧ entry.node = node := by
  cases place with
  | nil => exact absurd rfl h
  | cons name outer => simp [node?, entryAt?_eq_some_iff, and_assoc]

/-- Puts a node at a place. What stood there gives way and keeps its rank; a new node comes last. -/
def put (tree : FileTree) (place : Location) (node : Node) : FileTree :=
  if h : (tree.entryAt? place).isSome then
    { tree with
      entries := tree.entries.map (Entry.of place node).renew
      distinct := by rw [Entry.map_place_renew]; exact tree.distinct }
  else
    { tree with
      entries := tree.entries ++ [.of place node]
      distinct := by
        rw [List.map_append]
        exact List.nodup_append.2 ⟨tree.distinct, by simp, by
          intro a ha b hb
          simp only [List.map_cons, List.map_nil, List.mem_singleton] at hb
          rintro rfl
          have hp : a = place := hb
          exact entryAt?_eq_none_iff.1 (Option.not_isSome_iff_eq_none.1 h) (hp ▸ ha)⟩ }

/-- Puts something else into the file at a place, under all names by which the file goes, or a new file where
there is none. -/
def fill (tree : FileTree) (place : Location) (content : Content) : FileTree :=
  match tree.entryAt? place with
  | none => tree.put place (.file content)
  | some entry =>
    { tree with
      entries := tree.entries.map (entry.fill content)
      distinct := by rw [Entry.map_place_fill]; exact tree.distinct }

/-- A tree that holds nothing but its current directory and those around it. -/
def around : Location → FileTree
  | [] => { entries := [], current := [], distinct := by simp }
  | name :: outer =>
    { (around outer).put (name :: outer) .directory with current := name :: outer }

/-- What a program finds in an empty directory: those around it, and its own memory, a file that can be opened
and not read from its beginning. -/
def withCurrent (place : Location) : FileTree :=
  (((around place).put ["proc"] .directory).put ["self", "proc"] .directory).put ["mem", "self", "proc"]
    (.file (.refused true .inputOutput))

def unlink (tree : FileTree) (place : Location) : FileTree :=
  let depth := place.length
  { tree with
    entries := tree.entries.filter fun e => !e.isAt place depth
    distinct := tree.distinct.sublist (List.filter_sublist.map Entry.place) }

/-- Takes a place away with all that lies below it. -/
def prune (tree : FileTree) (place : Location) : FileTree :=
  { tree with
    entries := tree.entries.filter fun e => !place.isSuffixOf e.place
    distinct := tree.distinct.sublist (List.filter_sublist.map Entry.place) }

@[simp] theorem current_put (tree : FileTree) (place : Location) (node : Node) :
    (tree.put place node).current = tree.current := by
  unfold put
  split <;> rfl

theorem mem_directories {tree : FileTree} {place : Location}
    (h : tree.isDirectory place = true) : place ∈ tree.directories := by
  by_cases hp : place = []
  · simp [directories, hp]
  · obtain ⟨entry, he, hl, hn⟩ := (node?_eq_some_iff hp).1 (beq_iff_eq.1 h)
    simp only [directories, List.mem_cons, List.mem_map, List.mem_filter]
    exact .inr ⟨entry, ⟨he, by simp [hn]⟩, hl⟩

end FileTree

end SerialManifest

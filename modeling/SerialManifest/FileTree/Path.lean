import SerialManifest.Text.Basic

namespace SerialManifest.Path

def isAbsolute (path : String) : Bool :=
  path.toList.head? == some '/'

def counts (segment : List Char) : Bool :=
  segment != [] && segment != ['.']

def segments (path : String) : List Char × List (List Char) :=
  match Text.split '/' path.toList with
  | [] => ([], [])
  | first :: rest => (first, rest)

/-- Drops the segments at the end that do not count; the list is innermost first. -/
def trimmed (inner : List (List Char)) : List (List Char) :=
  inner.dropWhile (!counts ·)

/-- The segments after the first, innermost first, without those at the end that do not count. -/
def steps (path : String) : List (List Char) :=
  trimmed (segments path).2.reverse

/-- The text of a path whose later segments are given innermost first. -/
def ofSteps (first : List Char) (inner : List (List Char)) : String :=
  if first = [] ∧ inner = [] then "/"
  else String.ofList (Text.join '/' (first :: inner.reverse))

/-- `child` below `base`; an absolute `child` stands alone. -/
def join (base child : String) : String :=
  if isAbsolute child || base == "" then child
  else if base.toList.getLast? == some '/' then base ++ child
  else base ++ "/" ++ child

/-- The path without its last segment; neither the root nor the empty path has one. -/
def parent? (path : String) : Option String :=
  match steps path with
  | _ :: outer => some (ofSteps (segments path).1 (trimmed outer))
  | [] => if (segments path).1 = [] then none else some ""

def last (path : String) : List Char :=
  (steps path).headD (segments path).1

/-- The last segment, unless the path ends in the root, `.` or `..`. -/
def fileName? (path : String) : Option String :=
  if last path = [] ∨ last path = ['.'] ∨ last path = ['.', '.'] then none
  else some (String.ofList (last path))

def ancestorsFrom (first : List Char) : List (List Char) → List String
  | [] => [ofSteps first []]
  | name :: outer =>
    if counts name then ofSteps first (name :: outer) :: ancestorsFrom first outer
    else ancestorsFrom first outer

/-- The path itself and all its parents, innermost first, the empty path left out. -/
def ancestors (path : String) : List String :=
  if path == "" then [] else ancestorsFrom (segments path).1 (steps path)

/-- What two spellings of one path have in common. Repeated slashes, slashes at the end and `.` segments after
the first do not count: `a//b/.` is `a/b`. -/
def key (path : String) : List (List Char) :=
  if path == "" then [] else (segments path).1 :: (segments path).2.filter counts

/-- What is left of the later segments of a path behind these names, if they are the first that count. -/
def behind : (names segments : List (List Char)) → Option (List (List Char))
  | [], segments => some segments
  | _ :: _, [] => none
  | name :: names, segment :: segments =>
    if counts segment then if segment = name then behind names segments else none
    else behind (name :: names) segments

/-- What is left of a path without what it has in common with `base`, if it begins with all of `base`. At neither
end of it is a segment that does not count. -/
def strip? (base path : String) : Option String :=
  match key base with
  | [] => some (if path == "" then "" else ofSteps (segments path).1 (steps path))
  | first :: names =>
    if path == "" ∨ (segments path).1 ≠ first then none
    else (behind names (segments path).2).map fun rest =>
      String.ofList (Text.join '/' (trimmed (trimmed rest).reverse).reverse)

/-- The place of a path in the tree below `root`. The root itself goes by its last name. -/
def relative (root path : String) : String :=
  if key path = key root then (fileName? path).getD ""
  else (strip? root path).getD path

end SerialManifest.Path

namespace SerialManifest.Text

/-- Whether `text` ends in `suffix` (given in lower case), ASCII capitals counting as small letters. -/
def endsInAnyCase (suffix text : List Char) : Bool :=
  suffix.isSuffixOf (text.map Char.toLower)

/-- The pieces between the separators; there is always one more piece than separators. -/
def split (sep : Char) : List Char → List (List Char)
  | [] => [[]]
  | c :: rest =>
    if c = sep then [] :: split sep rest
    else match split sep rest with
      | [] => [[c]]
      | piece :: pieces => (c :: piece) :: pieces

def join (sep : Char) : List (List Char) → List Char
  | [] => []
  | [piece] => piece
  | piece :: next :: pieces => piece ++ sep :: join sep (next :: pieces)

def replace (old new : Char) (text : List Char) : List Char :=
  text.map fun c => if c = old then new else c

/-- Everything behind the last separator, or the whole text without one. -/
def afterLast (sep : Char) (text : List Char) : List Char :=
  (split sep text).getLastD []

def startsWith (text lead : String) : Bool :=
  lead.toList.isPrefixOf text.toList

theorem split_ne_nil (sep : Char) (text : List Char) : split sep text ≠ [] := by
  cases text with
  | nil => simp [split]
  | cons c rest =>
    simp only [split]
    split
    · simp
    · split <;> simp

theorem join_split (sep : Char) (text : List Char) : join sep (split sep text) = text := by
  induction text with
  | nil => rfl
  | cons c rest ih =>
    simp only [split]
    cases h : split sep rest with
    | nil => exact absurd h (split_ne_nil sep rest)
    | cons piece pieces =>
      rw [h] at ih
      by_cases hc : c = sep
      · simp [hc, join, ih]
      · cases pieces with
        | nil => simp_all [join]
        | cons next more => simp_all [join]

theorem startsWith_iff {text lead : String} :
    startsWith text lead = true ↔ ∃ rest, text.toList = lead.toList ++ rest := by
  simp only [startsWith, List.isPrefixOf_iff_prefix]
  exact ⟨fun ⟨r, h⟩ => ⟨r, h.symm⟩, fun ⟨r, h⟩ => ⟨r, h.symm⟩⟩

end SerialManifest.Text

import SerialManifest.Candidate

namespace SerialManifest

/-- Type names with the places of their first definitions, in the order in which the names were found. -/
structure TypeIndex where
  entries : List (String × Origin)
  distinct : (entries.map Prod.fst).Nodup

namespace TypeIndex

def empty : TypeIndex := ⟨[], by simp⟩

def origin? (index : TypeIndex) (name : String) : Option Origin :=
  index.entries.lookup name

def names (index : TypeIndex) : List String :=
  index.entries.map Prod.fst

def contains (index : TypeIndex) (name : String) : Bool :=
  index.names.contains name

def size (index : TypeIndex) : Nat :=
  index.entries.length

def insertNew (index : TypeIndex) (candidate : Candidate) : TypeIndex :=
  if h : candidate.name ∈ index.names then index
  else
    { entries := index.entries ++ [(candidate.name, candidate.origin)]
      distinct := by
        rw [List.map_append]
        exact List.nodup_append.2 ⟨index.distinct, by simp, by
          intro a ha b hb
          simp only [List.map_cons, List.map_nil, List.mem_singleton] at hb
          rintro rfl
          exact h (hb ▸ ha)⟩ }

def insertAll (index : TypeIndex) (candidates : List Candidate) : TypeIndex :=
  candidates.foldl insertNew index

theorem origin?_eq_none_iff {index : TypeIndex} {name : String} :
    index.origin? name = none ↔ name ∉ index.names := by
  simp only [origin?, names, List.lookup_eq_none_iff, List.mem_map, not_exists, not_and, bne_iff_ne]
  exact ⟨fun h entry he hn => h entry he hn.symm, fun h entry he hn => h entry he hn.symm⟩

theorem origin?_insertNew (index : TypeIndex) (candidate : Candidate) (name : String) :
    (index.insertNew candidate).origin? name
      = (index.origin? name <|> if name = candidate.name then some candidate.origin else none) := by
  by_cases h : candidate.name ∈ index.names
  · have hc : index.insertNew candidate = index := by simp [insertNew, h]
    rw [hc]
    by_cases hn : name = candidate.name
    · subst hn
      cases ho : index.origin? candidate.name with
      | none => exact absurd h (origin?_eq_none_iff.1 ho)
      | some origin => simp
    · simp [hn]
  · by_cases hn : name = candidate.name
    · subst hn
      simp [insertNew, h, origin?, List.lookup_append]
    · have hb : (name == candidate.name) = false := by simp [hn]
      simp [insertNew, h, origin?, List.lookup_append, List.lookup_cons, hb, hn]

end TypeIndex

end SerialManifest

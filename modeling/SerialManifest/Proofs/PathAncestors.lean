import Mathlib.Data.List.DropRight
import SerialManifest.Proofs.PathSpelling

namespace SerialManifest

namespace Text

variable {sep : Char}

theorem split_of_not_mem {piece : List Char} (h : sep ∉ piece) : split sep piece = [piece] := by
  induction piece with
  | nil => rfl
  | cons c rest ih =>
    have hc : c ≠ sep := fun he => h (he ▸ List.mem_cons_self)
    have hr := ih fun hm => h (List.mem_cons_of_mem c hm)
    simp [split, hc, hr]

theorem split_append_cons {piece : List Char} (h : sep ∉ piece) (rest : List Char) :
    split sep (piece ++ sep :: rest) = piece :: split sep rest := by
  induction piece with
  | nil => simp [split]
  | cons c others ih =>
    have hc : c ≠ sep := fun he => h (he ▸ List.mem_cons_self)
    have hr := ih fun hm => h (List.mem_cons_of_mem c hm)
    simp [split, hc, hr]

theorem split_append_sep (sep : Char) (text rest : List Char) :
    split sep (text ++ sep :: rest) = split sep text ++ split sep rest := by
  induction text with
  | nil => simp [split]
  | cons c others ih =>
    rw [List.cons_append]
    by_cases hc : c = sep
    · simp only [split, hc, ↓reduceIte, ih, List.cons_append]
    · simp only [split, hc, ↓reduceIte, ih]
      cases hs : split sep others with
      | nil => exact absurd hs (split_ne_nil sep others)
      | cons piece pieces => rfl

theorem split_join {pieces : List (List Char)} (hne : pieces ≠ []) (h : ∀ piece ∈ pieces, sep ∉ piece) :
    split sep (join sep pieces) = pieces := by
  induction pieces with
  | nil => exact absurd rfl hne
  | cons piece others ih =>
    have hp := h piece List.mem_cons_self
    cases others with
    | nil => exact split_of_not_mem hp
    | cons next more =>
      have hr := ih (List.cons_ne_nil next more) fun other ho => h other (List.mem_cons_of_mem piece ho)
      rw [join, split_append_cons hp, hr]

theorem not_mem_of_mem_split {text piece : List Char} (h : piece ∈ split sep text) : sep ∉ piece := by
  induction text generalizing piece with
  | nil =>
    have he : piece = [] := by simpa [split] using h
    simp [he]
  | cons c rest ih =>
    by_cases hc : c = sep
    · simp only [split, hc, ↓reduceIte, List.mem_cons] at h
      rcases h with he | hm
      · simp [he]
      · exact ih hm
    · simp only [split, hc, ↓reduceIte] at h
      cases hs : split sep rest with
      | nil => exact absurd hs (split_ne_nil sep rest)
      | cons first others =>
        rw [hs] at h ih
        rcases List.mem_cons.1 h with he | hm
        · have hf := ih List.mem_cons_self
          simp [he, hf, Ne.symm hc]
        · exact ih (List.mem_cons_of_mem first hm)

end Text

/-- Segments as they stand between the slashes of a path, the first one and those after it innermost first. -/
def Path.Plain (first : List Char) (inner : List (List Char)) : Prop :=
  ∀ segment ∈ first :: inner, '/' ∉ segment

/-- The steps of a path whose later segments are given innermost first. -/
def Path.way (first : List Char) (inner : List (List Char)) : List Step :=
  ((first :: inner.reverse).filter (· != [])).map Step.ofSegment

namespace Path

variable {first name : List Char} {inner outer : List (List Char)}

theorem Plain.tail (h : Plain first (name :: outer)) : Plain first outer := by
  intro segment hm
  apply h segment
  rcases List.mem_cons.1 hm with he | hm
  · exact he ▸ List.mem_cons_self
  · exact List.mem_cons_of_mem _ (List.mem_cons_of_mem _ hm)

theorem way_cons (first name : List Char) (outer : List (List Char)) :
    way first (name :: outer) = way first outer ++ if name = [] then [] else [Step.ofSegment name] := by
  by_cases hn : name = []
  · simp [way, hn, List.filter_cons]
  · simp only [way, List.reverse_cons, ← List.cons_append, List.filter_append, List.map_append, hn,
      ↓reduceIte]
    simp [hn]

theorem way_cons_of_counts (hc : counts name = true) :
    way first (name :: outer) = way first outer ++ [Step.ofSegment name] := by
  have hne : name ≠ [] := by
    intro he
    rw [he] at hc
    exact absurd hc (by decide)
  rw [way_cons, if_neg hne]

theorem split_ofSteps (h : Plain first inner) (hne : ¬ (first = [] ∧ inner = [])) :
    Text.split '/' (ofSteps first inner).toList = first :: inner.reverse := by
  rw [ofSteps, if_neg hne, String.toList_ofList]
  apply Text.split_join (List.cons_ne_nil _ _)
  intro segment hm
  apply h segment
  simpa using hm

theorem segments_ofSteps (h : Plain first inner) (hne : ¬ (first = [] ∧ inner = [])) :
    segments (ofSteps first inner) = (first, inner.reverse) := by
  rw [segments, split_ofSteps h hne]

theorem ofSteps_ne_empty (h : Plain first inner) (hne : ¬ (first = [] ∧ inner = [])) :
    ofSteps first inner ≠ "" := by
  intro he
  have hs := segments_ofSteps h hne
  rw [he] at hs
  have hempty : [] = first ∧ [] = inner.reverse := Prod.mk.inj hs
  exact hne ⟨hempty.1.symm, List.reverse_eq_nil_iff.1 hempty.2.symm⟩

theorem isAbsolute_ofSteps (h : Plain first inner) : isAbsolute (ofSteps first inner) = (first == []) := by
  by_cases hne : first = [] ∧ inner = []
  · obtain ⟨rfl, rfl⟩ := hne
    rfl
  · have hs := segments_ofSteps h hne
    rw [isAbsolute_eq (ofSteps_ne_empty h hne), hs]

theorem ofText_ofSteps (h : Plain first inner) (hne : ¬ (first = [] ∧ inner = []))
    (hlast : ∀ name outer, inner = name :: outer → counts name = true) :
    Route.ofText (ofSteps first inner) = ⟨first == [], way first inner⟩ := by
  have hopen : ¬ (1 < (first :: inner.reverse).length ∧ (first :: inner.reverse).getLast? = some []) := by
    cases inner with
    | nil => simp
    | cons name outer =>
      have hn : name ≠ [] := by
        rintro rfl
        exact absurd (hlast [] outer rfl) (by decide)
      simp [List.getLast?_cons, hn]
  unfold Route.ofText
  simp only [split_ofSteps h hne, isAbsolute_ofSteps h, if_neg hopen, List.append_nil]
  rfl

theorem last_ofSteps (h : Plain first (name :: outer)) (hc : counts name = true) :
    last (ofSteps first (name :: outer)) = name := by
  have hs := segments_ofSteps h (by simp)
  simp [last, steps, hs, trimmed, hc]

variable {path : String}

theorem plain_steps (path : String) : Plain (segments path).1 (steps path) := by
  obtain ⟨⟨first, rest⟩, hp⟩ : ∃ parts, segments path = parts := ⟨_, rfl⟩
  have hs := split_cons_of_segments hp
  intro segment hm
  suffices hin : segment ∈ Text.split '/' path.toList from Text.not_mem_of_mem_split hin
  rw [hs]
  rw [steps, trimmed, hp] at hm
  rcases List.mem_cons.1 hm with he | hm
  · exact he ▸ List.mem_cons_self
  · have hr := (List.dropWhile_sublist _).subset hm
    exact List.mem_cons_of_mem first (List.mem_reverse.1 hr)

/-- What a path asks for behind its last segment that counts comes after all the steps to it. -/
theorem way_prefix_steps (path : String) :
    way (segments path).1 (steps path) <+: (Route.ofText path).steps := by
  obtain ⟨⟨first, rest⟩, hp⟩ : ∃ parts, segments path = parts := ⟨_, rfl⟩
  have hs := split_cons_of_segments hp
  have hrest : (steps path).reverse <+: rest := by
    rw [steps, trimmed, hp]
    exact List.rdropWhile_prefix _ rest
  have hall : first :: (steps path).reverse <+: first :: rest := (List.prefix_cons_inj first).2 hrest
  unfold Route.ofText
  simp only [hs, hp]
  exact ((hall.filter _).map Step.ofSegment).trans (List.prefix_append _ _)

end Path

end SerialManifest

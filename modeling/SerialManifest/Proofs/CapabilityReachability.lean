import Mathlib.Logic.Relation
import SerialManifest.Proofs.FixedAnswers
import SerialManifest.TypeFacts.Hierarchy

namespace SerialManifest

namespace Hierarchy

variable {hierarchy : Hierarchy Unit} {capability start : String}

def above (hierarchy : Hierarchy Unit) (name : String) : Except QueryError (List String) :=
  outcomeOf (hierarchy.supertypes name)

def Above (hierarchy : Hierarchy Unit) (name supertype : String) : Prop :=
  name ∈ hierarchy.defined ∧ ∃ supertypes, hierarchy.above name = .ok supertypes ∧ supertype ∈ supertypes

def Reaches (hierarchy : Hierarchy Unit) : String → String → Prop :=
  Relation.ReflTransGen hierarchy.Above

/-- A type of which it can be told what lies above it. -/
def Known (hierarchy : Hierarchy Unit) (name : String) : Prop :=
  (name ∈ hierarchy.defined ∧ ∃ supertypes, hierarchy.above name = .ok supertypes) ∨
    (name ∉ hierarchy.defined ∧ hierarchy.isLeaf name = true)

/-- A type that will not be looked at again: it is not the capability and has been expanded, or there is
nothing to expand. -/
def Done (hierarchy : Hierarchy Unit) (capability : String) (expanded : List String)
    (unresolved : Option String) (name : String) : Prop :=
  name ≠ capability ∧ (name ∈ expanded ∨
    name ∉ hierarchy.defined ∧ (hierarchy.isLeaf name = true ∨ unresolved ≠ none))

/-- How the unknown type that is remembered changes: only from none to one of the pending types. -/
def Remembers (hierarchy : Hierarchy Unit) (pending : List String) (before after : Option String) : Prop :=
  after = before ∨ before = none ∧ ∃ name ∈ pending, after = some name ∧
    name ∉ hierarchy.defined ∧ hierarchy.isLeaf name = false

theorem Done.mono {expanded more : List String} {before after : Option String} {name : String}
    (h : hierarchy.Done capability expanded before name) (he : ∀ other ∈ expanded, other ∈ more)
    (hu : before ≠ none → after ≠ none) : hierarchy.Done capability more after name := by
  obtain ⟨hne, hm | ⟨hd, hl⟩⟩ := h
  · exact ⟨hne, .inl (he name hm)⟩
  · exact ⟨hne, .inr ⟨hd, hl.imp_right hu⟩⟩

theorem Remembers.ne_none {pending : List String} {before after : Option String}
    (h : hierarchy.Remembers pending before after) (hb : before ≠ none) : after ≠ none := by
  rcases h with rfl | ⟨hn, _⟩
  · exact hb
  · exact absurd hn hb

theorem Remembers.cons {pending : List String} {before after : Option String} {first : String}
    (h : hierarchy.Remembers pending before after) : hierarchy.Remembers (first :: pending) before after :=
  h.imp_right fun ⟨hb, name, hm, hrest⟩ => ⟨hb, name, List.mem_cons_of_mem first hm, hrest⟩

/-- Where settling stops, given what is then pending. -/
inductive Stops (capability : String) (unresolved : Option String) : List String → Settled → Prop where
  | reached (rest : List String) : Stops capability unresolved (capability :: rest) .reached
  | exhausted : Stops capability unresolved [] (.exhausted unresolved)
  | expand {name : String} (rest : List String) (hne : name ≠ capability) :
    Stops capability unresolved (name :: rest) (.expand name rest unresolved)

/-- Settling has dropped pending types that are done with, up to where it stopped. -/
def Splits (hierarchy : Hierarchy Unit) (capability : String) (expanded : List String)
    (before : Option String) (pending : List String) (settled : Settled) : Prop :=
  ∃ dropped remaining after, pending = dropped ++ remaining ∧
    (∀ name ∈ dropped, hierarchy.Done capability expanded after name) ∧
    hierarchy.Remembers pending before after ∧ Stops capability after remaining settled

theorem Stops.splits {expanded pending : List String} {before : Option String} {settled : Settled}
    (h : Stops capability before pending settled) :
    hierarchy.Splits capability expanded before pending settled :=
  ⟨[], pending, before, rfl, by simp, .inl rfl, h⟩

theorem Splits.cons {expanded others : List String} {before middle : Option String} {first : String}
    {settled : Settled} (h : hierarchy.Splits capability expanded middle others settled)
    (hm : hierarchy.Remembers (first :: others) before middle)
    (hf : ∀ after, hierarchy.Remembers others middle after →
      hierarchy.Done capability expanded after first) :
    hierarchy.Splits capability expanded before (first :: others) settled := by
  obtain ⟨dropped, remaining, after, hp, hd, hr, hs⟩ := h
  refine ⟨first :: dropped, remaining, after, by rw [hp]; rfl, ?_, ?_, hs⟩
  · intro name hn
    rcases List.mem_cons.1 hn with rfl | hn
    · exact hf after hr
    · exact hd name hn
  · rcases hm with rfl | ⟨hb, name, hmem, he, hunknown⟩
    · exact hr.cons
    · rcases hr with rfl | ⟨hn, _⟩
      · exact .inr ⟨hb, name, hmem, he, hunknown⟩
      · cases he.symm.trans hn

theorem settle_splits (hierarchy : Hierarchy Unit) (capability : String) (expanded : List String)
    (before : Option String) (pending : List String) :
    hierarchy.Splits capability expanded before pending
      (hierarchy.settle capability expanded before pending) := by
  induction pending generalizing before with
  | nil => exact Stops.exhausted.splits
  | cons first others ih =>
    rw [settle]
    -- a type is dropped if it was expanded, if it is a leaf, or if it is unknown, which is remembered
    split
    next hc => exact hc ▸ (Stops.reached others).splits
    next hc =>
      split
      next he => exact (ih before).cons (.inl rfl) fun _ _ => ⟨hc, .inl he⟩
      next =>
        split
        next => exact (Stops.expand others hc).splits
        next hd =>
          split
          next hl => exact (ih before).cons (.inl rfl) fun _ _ => ⟨hc, .inr ⟨hd, .inl hl⟩⟩
          next hl =>
            refine (ih _).cons ?_ fun after hr => ⟨hc, .inr ⟨hd, .inr (hr.ne_none ?_)⟩⟩
            · cases before with
              | some name => exact .inl rfl
              | none => exact .inr ⟨rfl, first, List.mem_cons_self, rfl, hd, by simpa using hl⟩
            · cases before <;> simp

/-- A search from `start` that is under way. -/
structure Searching (hierarchy : Hierarchy Unit) (capability start : String) (expanded : List String)
    (unresolved : Option String) (pending : List String) : Prop where
  reached : ∀ name ∈ pending, hierarchy.Reaches start name
  started : start ∈ pending ∨ hierarchy.Done capability expanded unresolved start
  expanded : ∀ name ∈ expanded, name ∈ hierarchy.defined ∧ ∃ supertypes,
    hierarchy.above name = .ok supertypes ∧
    ∀ supertype ∈ supertypes, supertype ∈ pending ∨ hierarchy.Done capability expanded unresolved supertype
  unresolved : ∀ name, unresolved = some name → hierarchy.Reaches start name ∧
    name ∉ hierarchy.defined ∧ hierarchy.isLeaf name = false

def Verified (hierarchy : Hierarchy Unit) (capability start : String) : Except QueryError Verdict → Prop
  | .ok .reached => hierarchy.Reaches start capability
  | .ok .unreached => ¬ hierarchy.Reaches start capability ∧
      ∀ name, hierarchy.Reaches start name → hierarchy.Known name
  | .ok (.unresolved name) => ¬ hierarchy.Reaches start capability ∧
      hierarchy.Reaches start name ∧ name ∉ hierarchy.defined ∧ hierarchy.isLeaf name = false
  | .error error => ∃ name, hierarchy.Reaches start name ∧ name ∈ hierarchy.defined ∧
      hierarchy.above name = .error error

/-- Once nothing is pending, the types that are done with are closed under going up. -/
theorem Searching.done_of_reaches {expanded : List String} {unresolved : Option String} {name : String}
    (h : hierarchy.Searching capability start expanded unresolved [])
    (hr : hierarchy.Reaches start name) : hierarchy.Done capability expanded unresolved name := by
  induction hr with
  | refl => exact h.started.resolve_left List.not_mem_nil
  | @tail lower upper _ step ih =>
    obtain ⟨hd, supertypes, ha, hm⟩ := step
    have he : lower ∈ expanded := ih.2.resolve_right fun hn => hn.1 hd
    obtain ⟨_, others, ho, hall⟩ := h.expanded lower he
    cases ha.symm.trans ho
    exact (hall upper hm).resolve_left List.not_mem_nil

theorem Searching.drop {expanded dropped remaining : List String} {before after : Option String}
    (h : hierarchy.Searching capability start expanded before (dropped ++ remaining))
    (hd : ∀ name ∈ dropped, hierarchy.Done capability expanded after name)
    (hr : hierarchy.Remembers (dropped ++ remaining) before after) :
    hierarchy.Searching capability start expanded after remaining := by
  have keep : ∀ {name}, name ∈ dropped ++ remaining ∨ hierarchy.Done capability expanded before name →
      name ∈ remaining ∨ hierarchy.Done capability expanded after name := by
    intro name hn
    rcases hn with hm | hn
    · rcases List.mem_append.1 hm with hm | hm
      · exact .inr (hd name hm)
      · exact .inl hm
    · exact .inr (hn.mono (fun _ hm => hm) hr.ne_none)
  refine ⟨fun name hm => h.reached name (List.mem_append_right dropped hm), keep h.started, ?_, ?_⟩
  · intro name hm
    obtain ⟨hdefined, supertypes, ha, hall⟩ := h.expanded name hm
    exact ⟨hdefined, supertypes, ha, fun supertype hs => keep (hall supertype hs)⟩
  · intro name he
    rcases hr with rfl | ⟨_, first, hm, hf, hunknown⟩
    · exact h.unresolved name he
    · cases he.symm.trans hf
      exact ⟨h.reached _ hm, hunknown⟩

theorem Searching.expand {expanded rest supertypes : List String} {unresolved : Option String}
    {name : String}
    (h : hierarchy.Searching capability start expanded unresolved (name :: rest))
    (hne : name ≠ capability) (hd : name ∈ hierarchy.defined) (ha : hierarchy.above name = .ok supertypes) :
    hierarchy.Searching capability start (name :: expanded) unresolved
      (supertypes.reverse ++ rest) := by
  have keep : ∀ {other}, other ∈ name :: rest ∨ hierarchy.Done capability expanded unresolved other →
      other ∈ supertypes.reverse ++ rest ∨
        hierarchy.Done capability (name :: expanded) unresolved other := by
    intro other ho
    rcases ho with hm | ho
    · rcases List.mem_cons.1 hm with rfl | hm
      · exact .inr ⟨hne, .inl List.mem_cons_self⟩
      · exact .inl (List.mem_append_right _ hm)
    · exact .inr (ho.mono (fun _ hm => List.mem_cons_of_mem name hm) id)
  have hup : hierarchy.Reaches start name := h.reached name List.mem_cons_self
  refine ⟨?_, keep h.started, ?_, h.unresolved⟩
  · intro other hm
    rcases List.mem_append.1 hm with hm | hm
    · exact hup.tail ⟨hd, supertypes, ha, List.mem_reverse.1 hm⟩
    · exact h.reached other (List.mem_cons_of_mem name hm)
  · intro other hm
    rcases List.mem_cons.1 hm with rfl | hm
    · exact ⟨hd, supertypes, ha, fun supertype hs =>
        .inl (List.mem_append_left rest (List.mem_reverse.2 hs))⟩
    · obtain ⟨hdefined, others, ho, hall⟩ := h.expanded other hm
      exact ⟨hdefined, others, ho, fun supertype hs => keep (hall supertype hs)⟩

theorem Searching.known_of_done {expanded : List String} {name : String}
    (h : hierarchy.Searching capability start expanded none [])
    (hd : hierarchy.Done capability expanded none name) : hierarchy.Known name := by
  rcases hd.2 with he | ⟨hm, hl | hn⟩
  · obtain ⟨hm, supertypes, ha, _⟩ := h.expanded name he
    exact .inl ⟨hm, supertypes, ha⟩
  · exact .inr ⟨hm, hl⟩
  · exact absurd rfl hn

theorem Searching.verified {expanded : List String} {unresolved : Option String}
    (h : hierarchy.Searching capability start expanded unresolved []) :
    hierarchy.Verified capability start
      (.ok (match unresolved with | none => .unreached | some name => .unresolved name)) := by
  have hn : ¬ hierarchy.Reaches start capability := fun hr => (h.done_of_reaches hr).1 rfl
  cases unresolved with
  | none => exact ⟨hn, fun name hr => h.known_of_done (h.done_of_reaches hr)⟩
  | some name => exact ⟨hn, h.unresolved name rfl⟩

theorem searchFrom_verified {expanded pending : List String} {unresolved : Option String}
    (h : hierarchy.Searching capability start expanded unresolved pending) :
    hierarchy.Verified capability start
      (outcomeOf (hierarchy.searchFrom capability expanded unresolved pending)) := by
  -- a turn drops what is done with and expands one type, and both keep the search under way
  induction expanded, unresolved, pending using searchFrom.induct hierarchy capability with
  | case1 expanded unresolved pending hs =>
    obtain ⟨dropped, remaining, after, rfl, _, _, hstop⟩ :=
      hs ▸ hierarchy.settle_splits capability expanded unresolved pending
    cases hstop
    rw [searchFrom, hs]
    exact h.reached capability (by simp)
  | case2 expanded unresolved pending hs =>
    obtain ⟨dropped, remaining, after, rfl, hd, hr, hstop⟩ :=
      hs ▸ hierarchy.settle_splits capability expanded unresolved pending
    cases hstop
    rw [searchFrom, hs]
    exact (h.drop hd hr).verified
  | case3 expanded unresolved pending supertype hs =>
    obtain ⟨dropped, remaining, after, rfl, hd, hr, hstop⟩ :=
      hs ▸ hierarchy.settle_splits capability expanded unresolved pending
    cases hstop
    rw [searchFrom, hs]
    exact (h.drop hd hr).verified
  | case4 expanded unresolved pending name rest later hs ih =>
    have hdefined := (settle_eq_expand hs).2
    obtain ⟨dropped, remaining, after, rfl, hd, hr, hstop⟩ :=
      hs ▸ hierarchy.settle_splits capability expanded unresolved pending
    cases hstop with
    | expand _ hne =>
      have hs' := h.drop hd hr
      rw [searchFrom, hs]
      dsimp only
      rw [outcomeOf_bind]
      cases ha : outcomeOf (hierarchy.supertypes name) with
      | error error => exact ⟨name, hs'.reached name List.mem_cons_self, hdefined, ha⟩
      | ok supertypes => exact ih supertypes (hs'.expand hne hdefined ha)

theorem search_verified (hierarchy : Hierarchy Unit) (start capability : String) :
    hierarchy.Verified capability start (outcomeOf (hierarchy.search start capability)) := by
  refine searchFrom_verified ⟨?_, .inl List.mem_cons_self, by simp, by simp⟩
  intro name hm
  exact List.mem_singleton.1 hm ▸ .refl

/-- One hierarchy answers as another one does that has nothing to remember. -/
structure Follows {σ : Type} (Good : σ → Prop) (remembering : Hierarchy σ) (hierarchy : Hierarchy Unit) :
    Prop where
  defined : remembering.defined = hierarchy.defined
  isLeaf : remembering.isLeaf = hierarchy.isLeaf
  supertypes : ∀ name, Gives Good (remembering.supertypes name) (hierarchy.above name)

section Follows

variable {σ : Type} {Good : σ → Prop} {remembering : Hierarchy σ}

theorem Follows.settle (follows : remembering.Follows Good hierarchy) (capability : String)
    (expanded : List String) (unresolved : Option String) (pending : List String) :
    remembering.settle capability expanded unresolved pending =
      hierarchy.settle capability expanded unresolved pending := by
  induction pending generalizing unresolved with
  | nil => rfl
  | cons name rest ih => simp only [Hierarchy.settle, follows.defined, follows.isLeaf, ih]

theorem Follows.searchFrom (follows : remembering.Follows Good hierarchy) (capability : String)
    (expanded : List String) (unresolved : Option String) (pending : List String) :
    Gives Good (remembering.searchFrom capability expanded unresolved pending)
      (outcomeOf (hierarchy.searchFrom capability expanded unresolved pending)) := by
  induction expanded, unresolved, pending using searchFrom.induct hierarchy capability with
  | case1 expanded unresolved pending hs =>
    rw [Hierarchy.searchFrom, follows.settle, Hierarchy.searchFrom, hs]
    exact .pure _
  | case2 expanded unresolved pending hs =>
    rw [Hierarchy.searchFrom, follows.settle, Hierarchy.searchFrom, hs]
    exact .pure _
  | case3 expanded unresolved pending supertype hs =>
    rw [Hierarchy.searchFrom, follows.settle, Hierarchy.searchFrom, hs]
    exact .pure _
  | case4 expanded unresolved pending name rest later hs ih =>
    rw [Hierarchy.searchFrom, follows.settle, Hierarchy.searchFrom, hs]
    dsimp only
    rw [outcomeOf_bind]
    exact (follows.supertypes name).bind fun supertypes _ => ih supertypes

theorem Follows.search (follows : remembering.Follows Good hierarchy) (start capability : String) :
    Gives Good (remembering.search start capability) (outcomeOf (hierarchy.search start capability)) :=
  follows.searchFrom capability [] none [start]

end Follows

end Hierarchy

end SerialManifest

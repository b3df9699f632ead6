import SerialManifest.Proofs.CapabilityReachability
import SerialManifest.Proofs.ExcusedErrors

namespace SerialManifest

/-- The verdict of a search with nothing left to look at. -/
def Verdict.ofUnresolved : Option String → Verdict
  | none => .unreached
  | some supertype => .unresolved supertype

namespace Hierarchy

def noted {σ : Type} (hierarchy : Hierarchy σ) (unresolved : Option String) (name : String) : Option String :=
  if hierarchy.isLeaf name then unresolved else unresolved <|> some name

variable {first second : Hierarchy Unit} {start capability : String} {Excused : QueryError → Prop}
variable {Alike : Option String → Option String → Prop}

/-- Both hierarchies say the same about the types above `start`, unless the first one is excused, and looking at
types that are not defined keeps what the two searches remember alike. -/
structure Pairs (Excused : QueryError → Prop) (Alike : Option String → Option String → Prop)
    (first second : Hierarchy Unit) (start : String) : Prop where
  defined : ∀ name, first.Reaches start name → (name ∈ first.defined ↔ name ∈ second.defined)
  above : ∀ name, first.Reaches start name → SameUnless Excused (first.above name) (second.above name)
  noted : ∀ name, first.Reaches start name → name ∉ first.defined → ∀ before after, Alike before after →
    Alike (first.noted before name) (second.noted after name)

/-- Both searches have stopped at the same place. -/
inductive Settled.Paired (Alike : Option String → Option String → Prop) : Settled → Settled → Prop where
  | reached : Paired Alike .reached .reached
  | exhausted {before after : Option String} (h : Alike before after) :
    Paired Alike (.exhausted before) (.exhausted after)
  | expand {before after : Option String} (name : String) (rest : List String) (h : Alike before after) :
    Paired Alike (.expand name rest before) (.expand name rest after)

/-- What the first search comes to tells what the second one comes to. -/
inductive Concludes (Excused : QueryError → Prop) (Alike : Option String → Option String → Prop) :
    Except QueryError Verdict → Except QueryError Verdict → Prop where
  | reached : Concludes Excused Alike (.ok .reached) (.ok .reached)
  | exhausted {before after : Option String} (h : Alike before after) :
    Concludes Excused Alike (.ok (.ofUnresolved before)) (.ok (.ofUnresolved after))
  | failed (error : QueryError) : Concludes Excused Alike (.error error) (.error error)
  | excused {error : QueryError} (h : Excused error) (other : Except QueryError Verdict) :
    Concludes Excused Alike (.error error) other

theorem Concludes.sameUnless {outcome outcome' : Except QueryError Verdict}
    (h : Concludes Excused Eq outcome outcome') : SameUnless Excused outcome outcome' := by
  cases h with
  | reached => exact .same _
  | exhausted h => exact h ▸ .same _
  | failed error => exact .same _
  | excused he => exact .excused he _

theorem searchFrom_of_reached {expanded pending : List String} {unresolved : Option String}
    (h : first.settle capability expanded unresolved pending = .reached) :
    outcomeOf (first.searchFrom capability expanded unresolved pending) = .ok .reached := by
  rw [searchFrom, h]
  rfl

theorem searchFrom_of_exhausted {expanded pending : List String} {unresolved after : Option String}
    (h : first.settle capability expanded unresolved pending = .exhausted after) :
    outcomeOf (first.searchFrom capability expanded unresolved pending) = .ok (.ofUnresolved after) := by
  rw [searchFrom, h]
  cases after <;> rfl

theorem searchFrom_of_expand {expanded pending rest : List String} {unresolved after : Option String}
    {name : String}
    (h : first.settle capability expanded unresolved pending = .expand name rest after) :
    outcomeOf (first.searchFrom capability expanded unresolved pending) =
      (first.above name).bind fun supertypes =>
        outcomeOf (first.searchFrom capability (name :: expanded) after (supertypes.reverse ++ rest)) := by
  rw [searchFrom, h]
  dsimp only
  rw [outcomeOf_bind]
  rfl

theorem settle_cons (hierarchy : Hierarchy Unit) (capability : String) (expanded : List String)
    (unresolved : Option String) (name : String) (rest : List String) :
    hierarchy.settle capability expanded unresolved (name :: rest) =
      if name = capability then .reached
      else if name ∈ expanded then hierarchy.settle capability expanded unresolved rest
      else if name ∈ hierarchy.defined then .expand name rest unresolved
      else hierarchy.settle capability expanded (hierarchy.noted unresolved name) rest := by
  rw [settle, noted]
  by_cases hl : hierarchy.isLeaf name = true
  · rw [if_pos hl, if_pos hl]
  · rw [if_neg hl, if_neg hl]

section Pairs

variable (pairs : first.Pairs Excused Alike second start)
include pairs

theorem Pairs.settle (expanded : List String) {before after : Option String} {pending : List String}
    (hr : ∀ name ∈ pending, first.Reaches start name) (h : Alike before after) :
    Settled.Paired Alike (first.settle capability expanded before pending)
      (second.settle capability expanded after pending) := by
  induction pending generalizing before after with
  | nil => exact .exhausted h
  | cons name rest ih =>
    have hname := hr name List.mem_cons_self
    have hrest := fun other hm => hr other (List.mem_cons_of_mem name hm)
    rw [settle_cons, settle_cons]
    by_cases hc : name = capability
    · rw [if_pos hc, if_pos hc]
      exact .reached
    · rw [if_neg hc, if_neg hc]
      by_cases he : name ∈ expanded
      · rw [if_pos he, if_pos he]
        exact ih hrest h
      · rw [if_neg he, if_neg he]
        by_cases hd : name ∈ first.defined
        · rw [if_pos hd, if_pos ((pairs.defined name hname).1 hd)]
          exact .expand name rest h
        · rw [if_neg hd, if_neg (mt (pairs.defined name hname).2 hd)]
          exact ih hrest (pairs.noted name hname hd before after h)

theorem Pairs.searchFrom {expanded pending : List String} {before after : Option String}
    (hr : ∀ name ∈ pending, first.Reaches start name) (h : Alike before after) :
    Concludes Excused Alike (outcomeOf (first.searchFrom capability expanded before pending))
      (outcomeOf (second.searchFrom capability expanded after pending)) := by
  induction expanded, before, pending using searchFrom.induct first capability generalizing after with
  | case1 expanded before pending hs =>
    have paired : Settled.Paired Alike .reached _ := hs ▸ pairs.settle expanded hr h
    generalize hother : second.settle capability expanded after pending = other at paired
    cases paired
    rw [searchFrom_of_reached hs, searchFrom_of_reached hother]
    exact .reached
  | case2 expanded before pending hs =>
    have paired : Settled.Paired Alike (.exhausted none) _ := hs ▸ pairs.settle expanded hr h
    generalize hother : second.settle capability expanded after pending = other at paired
    cases paired with
    | exhausted h =>
      rw [searchFrom_of_exhausted hs, searchFrom_of_exhausted hother]
      exact .exhausted h
  | case3 expanded before pending supertype hs =>
    have paired : Settled.Paired Alike (.exhausted (some supertype)) _ := hs ▸ pairs.settle expanded hr h
    generalize hother : second.settle capability expanded after pending = other at paired
    cases paired with
    | exhausted h =>
      rw [searchFrom_of_exhausted hs, searchFrom_of_exhausted hother]
      exact .exhausted h
  | case4 expanded before pending name rest middle hs ih =>
    have paired : Settled.Paired Alike (.expand name rest middle) _ := hs ▸ pairs.settle expanded hr h
    generalize hother : second.settle capability expanded after pending = other at paired
    have hdefined := (settle_eq_expand hs).2
    obtain ⟨dropped, remaining, _, hp, _, _, hstop⟩ :=
      hs ▸ first.settle_splits capability expanded before pending
    cases hstop with
    | expand _ hne =>
      -- whatever is pending can be reached, so the two hierarchies say the same about it
      have hname : first.Reaches start name := hr name (by simp [hp])
      cases paired with
      | expand _ _ h =>
        rw [searchFrom_of_expand hs, searchFrom_of_expand hother]
        have habove := pairs.above name hname
        generalize hfirst : first.above name = outcome at habove
        generalize second.above name = outcome' at habove
        cases habove with
        | excused he => exact .excused he _
        | same =>
          cases outcome with
          | error error => exact .failed error
          | ok supertypes =>
            refine ih supertypes (fun other hm => ?_) h
            rcases List.mem_append.1 hm with hm | hm
            · exact hname.tail ⟨hdefined, supertypes, hfirst, List.mem_reverse.1 hm⟩
            · exact hr other (by simp [hp, hm])

/-- What the two searches come to from the same start. -/
theorem Pairs.search (h : Alike none none) (capability : String) :
    Concludes Excused Alike (outcomeOf (first.search start capability))
      (outcomeOf (second.search start capability)) :=
  pairs.searchFrom (fun _ hm => List.mem_singleton.1 hm ▸ .refl) h

end Pairs

end Hierarchy

end SerialManifest

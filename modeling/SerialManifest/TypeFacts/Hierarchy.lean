import SerialManifest.TypeFacts.Basic

namespace SerialManifest

/-- What lies above each type: the types whose direct supertypes can be asked for, and the others that are
known to have none that matter. -/
structure Hierarchy (σ : Type) where
  defined : List String
  supertypes : String → Query σ (List String)
  isLeaf : String → Bool

inductive Verdict where
  | reached
  | unreached
  | unresolved (supertype : String)
deriving DecidableEq, Repr

namespace Hierarchy

variable {σ : Type}

/-- What the pending types come to before another one has to be expanded. -/
inductive Settled where
  | reached
  | exhausted (unresolved : Option String)
  | expand (name : String) (rest : List String) (unresolved : Option String)
deriving DecidableEq, Repr

/-- Drops pending types that need no expansion, up to the capability or the first that does. The first
unknown type is remembered. -/
def settle (hierarchy : Hierarchy σ) (capability : String) (expanded : List String) :
    Option String → List String → Settled
  | unresolved, [] => .exhausted unresolved
  | unresolved, name :: rest =>
    if name = capability then .reached
    else if name ∈ expanded then settle hierarchy capability expanded unresolved rest
    else if name ∈ hierarchy.defined then .expand name rest unresolved
    else if hierarchy.isLeaf name then settle hierarchy capability expanded unresolved rest
    else settle hierarchy capability expanded (unresolved <|> some name) rest

def unexpanded (hierarchy : Hierarchy σ) (expanded : List String) : List String :=
  hierarchy.defined.filter (· ∉ expanded)

theorem settle_eq_expand {hierarchy : Hierarchy σ} {capability name : String}
    {expanded rest pending : List String} {before after : Option String}
    (h : hierarchy.settle capability expanded before pending = .expand name rest after) :
    name ∉ expanded ∧ name ∈ hierarchy.defined := by
  induction pending generalizing before with
  | nil => simp [settle] at h
  | cons first others ih =>
    rw [settle] at h
    split at h
    · cases h
    · split at h
      · exact ih h
      · split at h
        next hn hd =>
          cases h
          exact ⟨hn, hd⟩
        next => split at h <;> exact ih h

theorem unexpanded_cons_lt {hierarchy : Hierarchy σ} {expanded : List String} {name : String}
    (h : name ∉ expanded ∧ name ∈ hierarchy.defined) :
    (hierarchy.unexpanded (name :: expanded)).length < (hierarchy.unexpanded expanded).length := by
  have he : hierarchy.unexpanded (name :: expanded)
      = (hierarchy.unexpanded expanded).filter (· ≠ name) := by
    simp only [unexpanded, List.filter_filter]
    congr 1
    funext other
    simp
  rw [he]
  refine List.length_filter_lt_length_iff_exists.2 ⟨name, ?_, by simp⟩
  simp [unexpanded, h.1, h.2]

def searchFrom (hierarchy : Hierarchy σ) (capability : String) (expanded : List String)
    (unresolved : Option String) (pending : List String) : Query σ Verdict :=
  match _ : hierarchy.settle capability expanded unresolved pending with
  | .reached => return .reached
  | .exhausted none => return .unreached
  | .exhausted (some supertype) => return .unresolved supertype
  | .expand name rest unresolved => do
    let supertypes ← hierarchy.supertypes name
    searchFrom hierarchy capability (name :: expanded) unresolved (supertypes.reverse ++ rest)
termination_by (hierarchy.unexpanded expanded).length
decreasing_by exact unexpanded_cons_lt (settle_eq_expand ‹_›)

/-- Looks for a capability from a type upward, the type itself included, depth first and the last supertype
first. A type that nothing is known about does not stop the search, but then there is no plain no at its end. -/
def search (hierarchy : Hierarchy σ) (name capability : String) : Query σ Verdict :=
  hierarchy.searchFrom capability [] none [name]

end Hierarchy

def Verdict.answer {σ : Type} (name : String) : Verdict → Query σ Bool
  | .reached => return true
  | .unreached => return false
  | .unresolved supertype => throw (.unresolvedSupertype name supertype)

end SerialManifest

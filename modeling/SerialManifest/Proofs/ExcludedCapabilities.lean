import Mathlib.Data.List.Basic
import SerialManifest.Proofs.ClasspathQuestions

namespace SerialManifest

namespace Hierarchy

/-- Up to where one of two capabilities turns up, the pending types come to the same for both. -/
theorem settle_reached_or_eq {σ : Type} (hierarchy : Hierarchy σ) (capability other : String)
    (expanded : List String) (unresolved : Option String) (pending : List String) :
    hierarchy.settle capability expanded unresolved pending = .reached ∨
      hierarchy.settle other expanded unresolved pending = .reached ∨
      hierarchy.settle capability expanded unresolved pending =
        hierarchy.settle other expanded unresolved pending := by
  induction pending generalizing unresolved with
  | nil => exact .inr (.inr rfl)
  | cons name rest ih =>
    simp only [settle]
    by_cases hc : name = capability
    · exact .inl (if_pos hc)
    · by_cases ho : name = other
      · exact .inr (.inl (if_pos ho))
      · simp only [if_neg hc, if_neg ho]
        split
        · exact ih unresolved
        · split
          · exact .inr (.inr rfl)
          · split
            · exact ih unresolved
            · exact ih _

variable {hierarchy : Hierarchy Unit}

theorem searchFrom_of_settle {capability : String} {expanded pending : List String}
    {unresolved : Option String}
    (h : hierarchy.settle capability expanded unresolved pending = .reached) :
    outcomeOf (hierarchy.searchFrom capability expanded unresolved pending) = .ok .reached := by
  rw [searchFrom, h, outcomeOf_pure]

variable (hierarchy) in
theorem searchFrom_reached_or_settle_eq (capability other : String) (expanded : List String)
    (unresolved : Option String) (pending : List String) :
    outcomeOf (hierarchy.searchFrom capability expanded unresolved pending) = .ok .reached ∨
      outcomeOf (hierarchy.searchFrom other expanded unresolved pending) = .ok .reached ∨
      hierarchy.settle capability expanded unresolved pending =
        hierarchy.settle other expanded unresolved pending :=
  (hierarchy.settle_reached_or_eq capability other expanded unresolved pending).imp searchFrom_of_settle
    (.imp_left searchFrom_of_settle)

/-- Two searches from the same types come to the same, unless one of them finds what it looks for. -/
theorem searchFrom_reached_or_eq (capability other : String) (expanded : List String)
    (unresolved : Option String) (pending : List String) :
    outcomeOf (hierarchy.searchFrom capability expanded unresolved pending) = .ok .reached ∨
      outcomeOf (hierarchy.searchFrom other expanded unresolved pending) = .ok .reached ∨
      outcomeOf (hierarchy.searchFrom capability expanded unresolved pending) =
        outcomeOf (hierarchy.searchFrom other expanded unresolved pending) := by
  induction expanded, unresolved, pending using searchFrom.induct hierarchy capability with
  | case1 expanded unresolved pending hs => exact .inl (searchFrom_of_settle hs)
  | case2 expanded unresolved pending hs =>
    have turn := hierarchy.searchFrom_reached_or_settle_eq capability other expanded unresolved pending
    refine turn.imp_right (.imp_right fun h => ?_)
    rw [searchFrom, hs, searchFrom, ← h, hs]
  | case3 expanded unresolved pending supertype hs =>
    have turn := hierarchy.searchFrom_reached_or_settle_eq capability other expanded unresolved pending
    refine turn.imp_right (.imp_right fun h => ?_)
    rw [searchFrom, hs, searchFrom, ← h, hs]
  | case4 expanded unresolved pending name rest later hs ih =>
    rcases hierarchy.searchFrom_reached_or_settle_eq capability other expanded unresolved pending with h | h | h
    · exact .inl h
    · exact .inr (.inl h)
    · rw [searchFrom, hs, searchFrom, ← h, hs]
      dsimp only
      rw [outcomeOf_bind, outcomeOf_bind]
      cases outcomeOf (hierarchy.supertypes name) with
      | error error => exact .inr (.inr rfl)
      | ok supertypes => exact ih supertypes

end Hierarchy

/-- By the answers about a type, it has the first capability of one list, while asking for the first one of
the other list ends with an error. -/
def Forestalls (has : String → Except QueryError Bool) (first second : List String) (error : QueryError) :
    Prop :=
  (∃ capability ∈ first.head?, has capability = .ok true) ∧
    ∃ capability ∈ second.head?, has capability = .error error

namespace TypeFacts

variable {facts : TypeFacts Unit} {name : String}

def has (facts : TypeFacts Unit) (name capability : String) : Except QueryError Bool :=
  outcomeOf (facts.implements name capability)

/-- Whatever capability it is, a type has it or this is the answer. -/
def Refuses (facts : TypeFacts Unit) (name : String) (refusal : Except QueryError Bool) : Prop :=
  refusal ≠ .ok true ∧ ∀ capability,
    facts.has name capability = .ok true ∨ facts.has name capability = refusal

theorem implementsAny_cons (capability : String) (others : List String) :
    outcomeOf (facts.implementsAny name (capability :: others)) =
      (facts.has name capability).bind fun found =>
        if found then .ok true else outcomeOf (facts.implementsAny name others) := by
  rw [implementsAny, outcomeOf_bind]
  congr 1
  funext found
  cases found <;> rfl

theorem implementsAny_of_refuses_false (refuses : facts.Refuses name (.ok false)) (capabilities : List String) :
    (outcomeOf (facts.implementsAny name capabilities) = .ok true ∧
        ∃ capability ∈ capabilities, facts.has name capability = .ok true) ∨
      (outcomeOf (facts.implementsAny name capabilities) = .ok false ∧
        ∀ capability ∈ capabilities, facts.has name capability = .ok false) := by
  induction capabilities with
  | nil => exact .inr ⟨rfl, nofun⟩
  | cons capability others ih =>
    rw [implementsAny_cons]
    rcases refuses.2 capability with h | h
    · exact .inl ⟨by rw [h]; rfl, capability, List.mem_cons_self, h⟩
    · rw [h]
      rcases ih with ⟨he, other, hm, ho⟩ | ⟨he, hall⟩
      · exact .inl ⟨he, other, List.mem_cons_of_mem capability hm, ho⟩
      · exact .inr ⟨he, List.forall_mem_cons.2 ⟨h, hall⟩⟩

/-- With an error for all other capabilities, the first capability decides. -/
theorem implementsAny_of_refuses_error {error : QueryError} (refuses : facts.Refuses name (.error error))
    (capability : String) (others : List String) :
    outcomeOf (facts.implementsAny name (capability :: others)) =
      facts.has name capability := by
  rw [implementsAny_cons]
  rcases refuses.2 capability with h | h
  · rw [h]
    rfl
  · rw [h]
    rfl

/-- Whether a type has one of several capabilities does not hang on their order and on how often they are
named, unless one order forestalls an error. -/
theorem implementsAny_eq_or_forestalls {refusal : Except QueryError Bool} (refuses : facts.Refuses name refusal)
    {first second : List String} (same : ∀ capability, capability ∈ first ↔ capability ∈ second) :
    outcomeOf (facts.implementsAny name first) = outcomeOf (facts.implementsAny name second) ∨
      ∃ error, Forestalls (facts.has name) first second error ∨
        Forestalls (facts.has name) second first error := by
  match refusal, refuses with
  | .ok true, refuses => exact absurd rfl refuses.1
  | .ok false, refuses =>
    left
    rcases implementsAny_of_refuses_false refuses first with ⟨he, capability, hm, hc⟩ | ⟨he, hall⟩
    · rcases implementsAny_of_refuses_false refuses second with ⟨he', _⟩ | ⟨_, hall'⟩
      · rw [he, he']
      · cases hc.symm.trans (hall' capability ((same capability).1 hm))
    · rcases implementsAny_of_refuses_false refuses second with ⟨_, capability, hm, hc⟩ | ⟨he', _⟩
      · cases hc.symm.trans (hall capability ((same capability).2 hm))
      · rw [he, he']
  | .error error, refuses =>
    match first, second with
    | [], [] => exact .inl rfl
    | [], capability :: _ => exact absurd ((same capability).2 List.mem_cons_self) List.not_mem_nil
    | capability :: _, [] => exact absurd ((same capability).1 List.mem_cons_self) List.not_mem_nil
    | capability :: others, capability' :: others' =>
      have heads : ∀ {first second : String} {rest rest' : List String},
          facts.has name first = .ok true →
          facts.has name second = .error error →
          Forestalls (facts.has name) (first :: rest) (second :: rest') error :=
        fun hf hs => ⟨⟨_, rfl, hf⟩, _, rfl, hs⟩
      rw [implementsAny_of_refuses_error refuses, implementsAny_of_refuses_error refuses]
      rcases refuses.2 capability with h | h
      · rcases refuses.2 capability' with h' | h'
        · exact .inl (h.trans h'.symm)
        · exact .inr ⟨error, .inl (heads h h')⟩
      · rcases refuses.2 capability' with h' | h'
        · exact .inr ⟨error, .inr (heads h' h)⟩
        · exact .inl (h.trans h'.symm)

theorem implementsAny_of_forestalls {first second : List String} {error : QueryError}
    (h : Forestalls (facts.has name) first second error) :
    outcomeOf (facts.implementsAny name first) = .ok true ∧
      outcomeOf (facts.implementsAny name second) = .error error := by
  obtain ⟨⟨capability, hf, hhas⟩, other, hs, herror⟩ := h
  obtain ⟨others, rfl⟩ := List.head?_eq_some_iff.1 hf
  obtain ⟨others', rfl⟩ := List.head?_eq_some_iff.1 hs
  rw [implementsAny_cons, implementsAny_cons, hhas, herror]
  exact ⟨rfl, rfl⟩

end TypeFacts

namespace Classpath

variable {classpath : Classpath} {tree : FileTree}

theorem has_eq_bind (name capability : String) :
    (classpath.factsAfresh tree).has name capability =
      (outcomeOf (classpath.requiredAfresh tree name)).bind fun _ =>
        (outcomeOf ((classpath.hierarchyAfresh tree).search name capability)).bind fun verdict =>
          outcomeOf (verdict.answer name) := by
  simp only [TypeFacts.has, factsAfresh, outcomeOf_bind]

theorem has_or_eq (classpath : Classpath) (tree : FileTree) (name capability other : String) :
    (classpath.factsAfresh tree).has name capability = .ok true ∨
      (classpath.factsAfresh tree).has name other = .ok true ∨
      (classpath.factsAfresh tree).has name capability = (classpath.factsAfresh tree).has name other := by
  rw [has_eq_bind, has_eq_bind]
  cases outcomeOf (classpath.requiredAfresh tree name) with
  | error error => exact .inr (.inr rfl)
  | ok file =>
    rcases Hierarchy.searchFrom_reached_or_eq capability other [] none [name] with h | h | h
    · exact .inl (by rw [Hierarchy.search, h]; rfl)
    · exact .inr (.inl (by rw [Hierarchy.search, h]; rfl))
    · exact .inr (.inr (by rw [Hierarchy.search, Hierarchy.search, h]))

/-- A type gives one and the same answer for all capabilities that it is not found to have. -/
theorem exists_refuses (classpath : Classpath) (tree : FileTree) (name : String) :
    ∃ refusal, (classpath.factsAfresh tree).Refuses name refusal := by
  by_cases hall : ∀ capability, (classpath.factsAfresh tree).has name capability = .ok true
  · exact ⟨.ok false, by simp, fun capability => .inl (hall capability)⟩
  · obtain ⟨other, hother⟩ := Classical.not_forall.1 hall
    refine ⟨_, hother, fun capability => ?_⟩
    have heither := classpath.has_or_eq tree name capability other
    exact heither.imp_right fun h => h.resolve_left hother

end Classpath

namespace EligibilityRules

variable {facts : TypeFacts Unit} {name : String} {rules rules' : EligibilityRules}

/-- What a type is classified as hangs on the excluded capabilities only through the question for any of
them, and that is put only if the type is governed and has the capability that it must have. -/
theorem classify_eq (rules : EligibilityRules) (facts : TypeFacts Unit) (name : String) :
    outcomeOf (rules.classify facts name) =
      if rules.governs name = true then
        (facts.has name rules.serializable).bind fun found =>
          if found then
            (outcomeOf (facts.implementsAny name rules.excluded)).bind fun any =>
              if any then .ok .ineligible
              else (outcomeOf (rules.isContractCheckable facts name)).map fun checkable =>
                if checkable then .contractCheckable else .manifestOnly
          else .ok .ineligible
      else .ok .excluded := by
  unfold TypeFacts.has
  by_cases hg : rules.governs name = true
  · rw [if_pos hg]
    simp only [classify, hg, Bool.not_true, Bool.false_eq_true, ↓reduceIte, admits, outcomeOf_bind]
    cases outcomeOf (facts.implements name rules.serializable) with
    | error error => rfl
    | ok found =>
      cases found with
      | false => rfl
      | true =>
        simp only [Except.bind, ↓reduceIte, outcomeOf_bind]
        cases outcomeOf (facts.implementsAny name rules.excluded) with
        | error error => rfl
        | ok any =>
          cases any with
          | true => rfl
          | false =>
            simp only [outcomeOf_pure, Bool.not_false, ↓reduceIte, outcomeOf_bind, Bool.false_eq_true]
            cases outcomeOf (rules.isContractCheckable facts name) with
            | error error => rfl
            | ok checkable => cases checkable <;> rfl
  · rw [classify_of_not_governs hg, if_neg hg, outcomeOf_pure]

/-- By the answers about a type it is kept out under the one rules and cannot be judged under the other, since
the excluded capabilities are asked for in another order. -/
structure Forestalls (rules rules' : EligibilityRules) (name : String) (has : String → Except QueryError Bool)
    (error : QueryError) : Prop where
  governed : rules.governs name = true
  serializable : has rules.serializable = .ok true
  excluded : SerialManifest.Forestalls has rules.excluded rules'.excluded error

/-- Rules that differ at most in the order of the excluded capabilities and in how often these are named. -/
structure SameButOrder (rules rules' : EligibilityRules) : Prop where
  namespaces : rules.namespaces = rules'.namespaces
  serializable : rules.serializable = rules'.serializable
  excluded : ∀ capability, capability ∈ rules.excluded ↔ capability ∈ rules'.excluded

namespace SameButOrder

variable (same : rules.SameButOrder rules')
include same

theorem symm : rules'.SameButOrder rules :=
  ⟨same.namespaces.symm, same.serializable.symm, fun capability => (same.excluded capability).symm⟩

theorem governs (name : String) : rules.governs name = rules'.governs name := by
  rw [EligibilityRules.governs, EligibilityRules.governs, same.namespaces]

theorem isContractCheckable (facts : TypeFacts Unit) (name : String) :
    rules.isContractCheckable facts name = rules'.isContractCheckable facts name := by
  simp only [EligibilityRules.isContractCheckable, productNamespace?, same.namespaces]

theorem classify_eq_of_implementsAny_eq (h : outcomeOf (facts.implementsAny name rules.excluded) =
      outcomeOf (facts.implementsAny name rules'.excluded)) :
    outcomeOf (rules.classify facts name) = outcomeOf (rules'.classify facts name) := by
  rw [classify_eq, classify_eq, same.governs, same.serializable, h, same.isContractCheckable]

theorem classify_of_forestalls {error : QueryError}
    (h : rules.Forestalls rules' name (facts.has name) error) :
    outcomeOf (rules.classify facts name) = .ok .ineligible ∧
      outcomeOf (rules'.classify facts name) = .error error := by
  obtain ⟨hany, hany'⟩ := TypeFacts.implementsAny_of_forestalls h.excluded
  have hserializable : facts.has name rules'.serializable = .ok true :=
    same.serializable ▸ h.serializable
  rw [classify_eq, classify_eq, ← same.governs, if_pos h.governed, if_pos h.governed, h.serializable,
    hserializable, hany, hany']
  exact ⟨rfl, rfl⟩

theorem classify_eq_or_forestalls {refusal : Except QueryError Bool} (refuses : facts.Refuses name refusal) :
    outcomeOf (rules.classify facts name) = outcomeOf (rules'.classify facts name) ∨
      ∃ error, rules.Forestalls rules' name (facts.has name) error ∨
        rules'.Forestalls rules name (facts.has name) error := by
  by_cases hasked : rules.governs name = true ∧
      facts.has name rules.serializable = .ok true
  · obtain ⟨hg, hs⟩ := hasked
    rcases TypeFacts.implementsAny_eq_or_forestalls refuses same.excluded with h | ⟨error, h | h⟩
    · exact .inl (same.classify_eq_of_implementsAny_eq h)
    · exact .inr ⟨error, .inl ⟨hg, hs, h⟩⟩
    · exact .inr ⟨error, .inr ⟨same.governs name ▸ hg, same.serializable ▸ hs, h⟩⟩
  · -- the excluded capabilities are not asked for at all
    left
    rw [classify_eq, classify_eq, ← same.governs, ← same.serializable]
    by_cases hg : rules.governs name = true
    · rw [if_pos hg, if_pos hg]
      cases hs : facts.has name rules.serializable with
      | error error => rfl
      | ok has =>
        cases has with
        | false => rfl
        | true => exact absurd ⟨hg, hs⟩ hasked
    · rw [if_neg hg, if_neg hg]

end SameButOrder

end EligibilityRules

namespace Classpath

variable {classpath : Classpath} {tree : FileTree} {cache cache' : ClassCache}
variable {rules rules' : EligibilityRules}

theorem run_classify (inUse : classpath.InUse tree cache) (rules : EligibilityRules) (name : String) :
    ((rules.classify (classpath.facts tree) name).run.run cache).1 =
      outcomeOf (rules.classify (classpath.factsAfresh tree) name) := by
  have follows : (classpath.facts tree).Follows (ClassCache.Faithful classpath tree)
      (classpath.factsAfresh tree) := facts_follows inUse.built
  exact ((follows.relates name).classify TypeFacts.gives_composes cache inUse.faithful).1

/-- Neither the order of the excluded capabilities nor naming one more than once changes what a type is
classified as, unless the type has the capability that is asked for first in the one order, and asking for the
first one in the other order ends with an error. Then the one order leaves the type out, and the other fails. -/
theorem classify_of_sameButOrder (inUse : classpath.InUse tree cache) (inUse' : classpath.InUse tree cache')
    (same : rules.SameButOrder rules') (name : String) :
    let outcome := ((rules.classify (classpath.facts tree) name).run.run cache).1
    let outcome' := ((rules'.classify (classpath.facts tree) name).run.run cache').1
    let has (capability : String) : Except QueryError Bool :=
      classpath.answer tree cache (.implements name capability)
    (outcome = outcome' ↔
        ¬ ∃ error, rules.Forestalls rules' name has error ∨ rules'.Forestalls rules name has error) ∧
      (∀ error, rules.Forestalls rules' name has error → outcome = .ok .ineligible ∧ outcome' = .error error) ∧
      ∀ error, rules'.Forestalls rules name has error →
        outcome = .error error ∧ outcome' = .ok .ineligible := by
  intro outcome outcome' has
  obtain ⟨refusal, refuses⟩ := classpath.exists_refuses tree name
  have houtcome : outcome = outcomeOf _ := run_classify inUse rules name
  have houtcome' : outcome' = outcomeOf _ := run_classify inUse' rules' name
  have hhas : has = (classpath.factsAfresh tree).has name :=
    funext fun capability => answer_of_faithful inUse.built inUse.faithful (.implements name capability)
  rw [houtcome, houtcome', hhas]
  generalize classpath.factsAfresh tree = facts at refuses
  have hforth : ∀ error, rules.Forestalls rules' name (facts.has name) error →
      outcomeOf (rules.classify facts name) = .ok .ineligible ∧
        outcomeOf (rules'.classify facts name) = .error error :=
    fun error h => same.classify_of_forestalls h
  have hback : ∀ error, rules'.Forestalls rules name (facts.has name) error →
      outcomeOf (rules.classify facts name) = .error error ∧
        outcomeOf (rules'.classify facts name) = .ok .ineligible :=
    fun error h => (same.symm.classify_of_forestalls h).symm
  refine ⟨⟨?_, (same.classify_eq_or_forestalls refuses).resolve_right⟩, hforth, hback⟩
  rintro heq ⟨error, h | h⟩
  · obtain ⟨hineligible, herror⟩ := hforth error h
    cases hineligible.symm.trans (heq.trans herror)
  · obtain ⟨herror, hineligible⟩ := hback error h
    cases herror.symm.trans (heq.trans hineligible)

/-- A serializable class with an interface that nothing is known about. -/
def branchTree : FileTree :=
  .ofFiles "lib" [("A.class", ClassFile.plainBytes "A" "java.lang.Object" ["java.io.Serializable", "F"])]

def branchTypes : Classpath :=
  (Classpath.empty.addRoot branchTree "lib").1

def branchRules (excluded : List String) : EligibilityRules :=
  ⟨["A"], "java.io.Serializable", excluded⟩

/-- As long as the capability that the class has is asked for first, it is left out. -/
theorem classify_of_branchTree :
    let outcome (excluded : List String) :=
      (((branchRules excluded).classify (branchTypes.facts branchTree) "A").run.run .empty).1
    outcome ["F", "G", "H"] = outcome ["F", "H", "F", "G"] ∧
      (outcome ["F", "G", "H"]).toOption = some .ineligible := by
  intro outcome
  have inUse : branchTypes.InUse branchTree .empty := .addRoot .fresh "lib"
  have same : (branchRules ["F", "G", "H"]).SameButOrder (branchRules ["F", "H", "F", "G"]) :=
    ⟨rfl, rfl, by simp [branchRules, or_comm, or_left_comm]⟩
  have hhas : branchTypes.answer branchTree .empty (.implements "A" "F") = .ok true := by
    decide +kernel
  refine ⟨(classify_of_sameButOrder inUse inUse same "A").1.2 ?_, by decide +kernel⟩
  rintro ⟨error, ⟨_, _, _, capability, hm, herror⟩ | ⟨_, _, _, capability, hm, herror⟩⟩
  · cases hm
    cases hhas.symm.trans herror
  · cases hm
    cases hhas.symm.trans herror

/-- With the other capability before it, the class cannot be judged at all. -/
theorem classify_of_swappedExcluded :
    let outcome (excluded : List String) :=
      (((branchRules excluded).classify (branchTypes.facts branchTree) "A").run.run .empty).1
    (branchRules ["F", "G"]).SameButOrder (branchRules ["G", "F"]) ∧
      outcome ["F", "G"] = .ok .ineligible ∧
      outcome ["G", "F"] = .error (.unresolvedSupertype "A" "F") := by
  refine ⟨⟨rfl, rfl, by simp [branchRules, or_comm]⟩, ?_, ?_⟩
  · decide +kernel
  · decide +kernel

end Classpath

end SerialManifest

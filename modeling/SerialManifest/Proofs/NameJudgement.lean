import SerialManifest.Proofs.QueryRelations
import SerialManifest.Proofs.ScanOutcome

namespace SerialManifest

variable {σ : Type} {Good : σ → Prop} {remembering : TypeFacts σ} {facts : TypeFacts Unit}

namespace TypeFacts

/-- Answers that no memory can change go on to answers that no memory can change. -/
theorem gives_composes : Composes fun action plain => Gives Good action (outcomeOf plain) where
  pure value := .pure value
  bind first others := by
    rw [outcomeOf_bind]
    exact first.bind fun value _ => others value

theorem Follows.relates (follows : remembering.Follows Good facts) (name : String) :
    remembering.Relates (fun action plain => Gives Good action (outcomeOf plain)) facts name :=
  ⟨follows.kind name, follows.isAbstract name, follows.simpleName name, follows.implements name,
    follows.field? name⟩

theorem implementsAny_eq_false_iff {name : String} {capabilities : List String} :
    outcomeOf (facts.implementsAny name capabilities) = .ok false ↔
      ∀ capability ∈ capabilities, outcomeOf (facts.implements name capability) = .ok false := by
  induction capabilities with
  | nil => simp [implementsAny]
  | cons capability others ih =>
    rw [implementsAny, outcomeOf_bind, Except.bind_eq_ok_iff, List.forall_mem_cons, ← ih]
    constructor
    · rintro ⟨has, hi, hrest⟩
      cases has with
      | true => cases hrest
      | false => exact ⟨hi, hrest⟩
    · rintro ⟨hi, hrest⟩
      exact ⟨false, hi, hrest⟩

theorem exists_of_implementsAny {name : String} {capabilities : List String}
    (h : outcomeOf (facts.implementsAny name capabilities) = .ok true) :
    ∃ capability ∈ capabilities, outcomeOf (facts.implements name capability) = .ok true := by
  induction capabilities with
  | nil => simp [implementsAny] at h
  | cons capability others ih =>
    rw [implementsAny, outcomeOf_bind, Except.bind_eq_ok_iff] at h
    obtain ⟨has, hi, hrest⟩ := h
    cases has with
    | true => exact ⟨capability, List.mem_cons_self, hi⟩
    | false =>
      obtain ⟨other, hm, ho⟩ := ih hrest
      exact ⟨other, List.mem_cons_of_mem capability hm, ho⟩

end TypeFacts

namespace EligibilityRules

variable {rules : EligibilityRules}

theorem classify_of_not_governs {facts : TypeFacts σ} {name : String} (h : ¬ rules.governs name = true) :
    rules.classify facts name = pure .excluded := by
  have hn : (!rules.governs name) = true := by simpa using h
  exact if_pos hn

theorem admits_eq_true_iff {name : String} :
    outcomeOf (rules.admits facts name) = .ok true ↔
      outcomeOf (facts.implements name rules.serializable) = .ok true ∧
        ∀ capability ∈ rules.excluded, outcomeOf (facts.implements name capability) = .ok false := by
  rw [admits, outcomeOf_bind, Except.bind_eq_ok_iff, ← TypeFacts.implementsAny_eq_false_iff]
  constructor
  · rintro ⟨has, hi, hrest⟩
    cases has with
    | false => cases hrest
    | true =>
      simp only [↓reduceIte, outcomeOf_bind, Except.bind_eq_ok_iff] at hrest
      obtain ⟨any, ha, he⟩ := hrest
      cases any with
      | true => cases he
      | false => exact ⟨hi, ha⟩
  · rintro ⟨hi, ha⟩
    refine ⟨true, hi, ?_⟩
    simp only [↓reduceIte, outcomeOf_bind, ha]
    rfl

theorem of_admits_eq_false {name : String} (h : outcomeOf (rules.admits facts name) = .ok false) :
    outcomeOf (facts.implements name rules.serializable) = .ok false ∨
      ∃ capability ∈ rules.excluded, outcomeOf (facts.implements name capability) = .ok true := by
  rw [admits, outcomeOf_bind, Except.bind_eq_ok_iff] at h
  obtain ⟨has, hi, hrest⟩ := h
  cases has with
  | false => exact .inl hi
  | true =>
    simp only [↓reduceIte, outcomeOf_bind, Except.bind_eq_ok_iff] at hrest
    obtain ⟨any, ha, he⟩ := hrest
    cases any with
    | true => exact .inr (TypeFacts.exists_of_implementsAny ha)
    | false => cases he

theorem classified {name : String} {eligibility : Eligibility}
    (h : outcomeOf (rules.classify facts name) = .ok eligibility) :
    (eligibility.inManifest = false ∧ rules.governs name = false) ∨
      rules.governs name = true ∧ outcomeOf (rules.admits facts name) = .ok eligibility.inManifest := by
  unfold classify at h
  split at h
  next hg =>
    cases h
    exact .inl ⟨rfl, by simpa using hg⟩
  next hg =>
    have hg : rules.governs name = true := by simpa using hg
    rw [outcomeOf_bind, Except.bind_eq_ok_iff] at h
    obtain ⟨admitted, ha, hrest⟩ := h
    split at hrest
    next ht =>
      rw [outcomeOf_bind, Except.bind_eq_ok_iff] at hrest
      obtain ⟨checkable, _, he⟩ := hrest
      subst ht
      split at he <;> cases he <;> exact .inr ⟨hg, ha⟩
    next hf =>
      cases hrest
      rw [Bool.not_eq_true] at hf
      subst hf
      exact .inr ⟨hg, ha⟩

end EligibilityRules

/-- The judgements that the answers of someone lead to who has nothing to remember. -/
def Verdicts.ofFacts (rules : EligibilityRules) (contract : FieldContract) (facts : TypeFacts Unit) :
    Verdicts where
  eligibility name := outcomeOf (rules.classify facts name)
  violations name := outcomeOf (contract.check facts name)

theorem TypeFacts.Follows.settled {scanner : Scanner} (follows : remembering.Follows Good facts) :
    scanner.Settled remembering Good (.ofFacts scanner.rules scanner.contract facts) where
  eligibility name := (follows.relates name).classify gives_composes
  violations name := (follows.relates name).check gives_composes

end SerialManifest

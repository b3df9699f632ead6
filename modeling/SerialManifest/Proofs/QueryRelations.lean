import SerialManifest.Contract
import SerialManifest.Eligibility

namespace SerialManifest

variable {σ τ : Type}

/-- A relation that holds of plain answers, and of questions one after the other if it holds of each. -/
structure Composes (Related : ∀ {α : Type}, Query σ α → Query τ α → Prop) : Prop where
  pure : ∀ {α : Type} (value : α), Related (Pure.pure value) (Pure.pure value)
  bind : ∀ {α β : Type} {first : Query σ α} {second : Query τ α} {next : α → Query σ β}
    {next' : α → Query τ β}, Related first second → (∀ value, Related (next value) (next' value)) →
      Related (first >>= next) (second >>= next')

/-- The questions about a type to one provider are related to those to the other. -/
structure TypeFacts.Relates (Related : ∀ {α : Type}, Query σ α → Query τ α → Prop) (facts : TypeFacts σ)
    (other : TypeFacts τ) (name : String) : Prop where
  kind : Related (facts.kind name) (other.kind name)
  isAbstract : Related (facts.isAbstract name) (other.isAbstract name)
  simpleName : Related (facts.simpleName name) (other.simpleName name)
  implements : ∀ capability, Related (facts.implements name capability) (other.implements name capability)
  field? : ∀ field, Related (facts.field? name field) (other.field? name field)

section Relating

variable {Related : ∀ {α : Type}, Query σ α → Query τ α → Prop}
variable {facts : TypeFacts σ} {other : TypeFacts τ} {rules : EligibilityRules} {contract : FieldContract}
variable {name : String}

theorem TypeFacts.Relates.implementsAny (relates : facts.Relates Related other name)
    (composes : Composes Related) (capabilities : List String) :
    Related (facts.implementsAny name capabilities) (other.implementsAny name capabilities) := by
  induction capabilities with
  | nil => exact composes.pure false
  | cons capability others ih =>
    refine composes.bind (relates.implements capability) fun has => ?_
    cases has with
    | true => exact composes.pure true
    | false => exact ih

theorem TypeFacts.Relates.admits (relates : facts.Relates Related other name)
    (composes : Composes Related) : Related (rules.admits facts name) (rules.admits other name) := by
  refine composes.bind (relates.implements rules.serializable) fun has => ?_
  cases has with
  | true =>
    have hany := relates.implementsAny composes rules.excluded
    exact composes.bind hany fun any => composes.pure (!any)
  | false => exact composes.pure false

theorem TypeFacts.Relates.isContractCheckable (relates : facts.Relates Related other name)
    (composes : Composes Related) :
    Related (rules.isContractCheckable facts name) (rules.isContractCheckable other name) := by
  refine composes.bind relates.kind fun kind => ?_
  by_cases hkind : kind ≠ .ordinaryClass
  · rw [if_pos hkind, if_pos hkind]
    exact composes.pure false
  · rw [if_neg hkind, if_neg hkind]
    refine composes.bind relates.isAbstract fun isAbstract => ?_
    cases isAbstract with
    | true => exact composes.pure false
    | false =>
      refine composes.bind relates.simpleName fun simpleName => ?_
      by_cases hname : simpleName = ""
      · rw [if_pos hname, if_pos hname]
        exact composes.pure false
      · rw [if_neg hname, if_neg hname]
        exact composes.pure _

theorem TypeFacts.Relates.classify (relates : facts.Relates Related other name)
    (composes : Composes Related) : Related (rules.classify facts name) (rules.classify other name) := by
  unfold EligibilityRules.classify
  split
  · exact composes.pure _
  · refine composes.bind (relates.admits composes) fun admitted => ?_
    cases admitted with
    | true =>
      refine composes.bind (relates.isContractCheckable composes) fun checkable => ?_
      cases checkable with
      | true => exact composes.pure _
      | false => exact composes.pure _
    | false => exact composes.pure _

theorem TypeFacts.Relates.check (relates : facts.Relates Related other name)
    (composes : Composes Related) : Related (contract.check facts name) (contract.check other name) :=
  composes.bind (relates.field? contract.fieldName) fun _ => composes.pure _

end Relating

end SerialManifest

import SerialManifest.TypeFacts.Basic

namespace SerialManifest

inductive Eligibility where
  | excluded
  | ineligible
  | manifestOnly
  | contractCheckable
deriving DecidableEq, Repr

def Eligibility.inManifest : Eligibility → Bool
  | .excluded | .ineligible => false
  | .manifestOnly | .contractCheckable => true

/-- The rules of eligibility: the beginnings of governed names, the first of them being the product's own;
the capability that a type must have; and those that it must not have. -/
structure EligibilityRules where
  namespaces : List String
  serializable : String
  excluded : List String
deriving DecidableEq, Repr

namespace EligibilityRules

variable {σ : Type}

/-- The namespace whose concrete classes are held to the contract. -/
def productNamespace? (rules : EligibilityRules) : Option String :=
  rules.namespaces.head?

def governs (rules : EligibilityRules) (name : String) : Bool :=
  rules.namespaces.any (Text.startsWith name)

/-- Whether a type of the manifest is held to the contract: a concrete class of the product with a name of
its own. -/
def isContractCheckable (rules : EligibilityRules) (facts : TypeFacts σ) (name : String) :
    Query σ Bool := do
  if (← facts.kind name) ≠ .ordinaryClass then return false
  else if ← facts.isAbstract name then return false
  else if (← facts.simpleName name) = "" then return false
  else return rules.productNamespace?.any (Text.startsWith name)

def admits (rules : EligibilityRules) (facts : TypeFacts σ) (name : String) : Query σ Bool := do
  if ← facts.implements name rules.serializable then
    return !(← facts.implementsAny name rules.excluded)
  else return false

def classify (rules : EligibilityRules) (facts : TypeFacts σ) (name : String) :
    Query σ Eligibility := do
  if !rules.governs name then return .excluded
  else if ← rules.admits facts name then
    if ← rules.isContractCheckable facts name then return .contractCheckable
    else return .manifestOnly
  else return .ineligible

end EligibilityRules

end SerialManifest

import SerialManifest.Proofs.ClasspathHierarchy
import SerialManifest.Proofs.PairedSearches

namespace SerialManifest

/-- Whatever the first question comes to, the second one comes to as well. Failures do not count. -/
def Carries {ε α : Type} (first second : ExceptT ε (StateM Unit) α) : Prop :=
  ∀ value, outcomeOf first = .ok value → outcomeOf second = .ok value

theorem Carries.refl {ε α : Type} (action : ExceptT ε (StateM Unit) α) : Carries action action :=
  fun _ h => h

theorem Carries.bind {ε α β : Type} {first second : ExceptT ε (StateM Unit) α}
    {next next' : α → ExceptT ε (StateM Unit) β} (h : Carries first second)
    (hn : ∀ value, outcomeOf first = .ok value → Carries (next value) (next' value)) :
    Carries (first >>= next) (second >>= next') := by
  intro result hr
  rw [outcomeOf_bind, Except.bind_eq_ok_iff] at hr ⊢
  obtain ⟨value, hv, hr⟩ := hr
  exact ⟨value, h value hv, hn value hv result hr⟩

theorem carries_iff {ε α : Type} {first second : ExceptT ε (StateM Unit) α} :
    Carries first second ↔ SameUnless (fun _ => True) (outcomeOf first) (outcomeOf second) := by
  constructor
  · intro h
    cases hf : outcomeOf first with
    | error error => exact .excused trivial _
    | ok value =>
      rw [h value hf]
      exact .same _
  · intro h value hv
    exact (h.eq_of_not_excused (by simp [hv])).symm.trans hv

namespace Hierarchy

variable {first second : Hierarchy Unit} {start : String}

/-- Both hierarchies say the same about the types above `start`, unless the first one is excused. -/
structure Resembles (Excused : QueryError → Prop) (first second : Hierarchy Unit) (start : String) :
    Prop where
  defined : ∀ name, name ∈ first.defined ↔ name ∈ second.defined
  isLeaf : first.isLeaf = second.isLeaf
  above : ∀ name, first.Reaches start name → SameUnless Excused (first.above name) (second.above name)

theorem Resembles.pairs {Excused : QueryError → Prop} (resembles : first.Resembles Excused second start) :
    first.Pairs Excused Eq second start where
  defined name _ := resembles.defined name
  above := resembles.above
  noted name _ _ before after h := by rw [h, noted, noted, resembles.isLeaf]

theorem Resembles.search {Excused : QueryError → Prop} (resembles : first.Resembles Excused second start)
    (capability : String) : SameUnless Excused
      (outcomeOf (first.search start capability)) (outcomeOf (second.search start capability)) :=
  (resembles.pairs.search rfl capability).sameUnless

/-- What the first hierarchy says about the types above `start` the second one says as well. -/
structure Carries (first second : Hierarchy Unit) (start : String) : Prop where
  defined : ∀ name, name ∈ first.defined ↔ name ∈ second.defined
  isLeaf : first.isLeaf = second.isLeaf
  above : ∀ name supertypes, first.Reaches start name → first.above name = .ok supertypes →
    second.above name = .ok supertypes

theorem Carries.resembles (carries : first.Carries second start) :
    first.Resembles (fun _ => True) second start where
  defined := carries.defined
  isLeaf := carries.isLeaf
  above name hr := carries_iff.1 fun supertypes ha => carries.above name supertypes hr ha

theorem Carries.search (carries : first.Carries second start) (capability : String) :
    SerialManifest.Carries (first.search start capability) (second.search start capability) :=
  carries_iff.2 (carries.resembles.search capability)

end Hierarchy

structure TypeFacts.Carries (first second : TypeFacts Unit) (name : String) : Prop where
  kind : SerialManifest.Carries (first.kind name) (second.kind name)
  isAbstract : SerialManifest.Carries (first.isAbstract name) (second.isAbstract name)
  simpleName : SerialManifest.Carries (first.simpleName name) (second.simpleName name)
  implements : ∀ capability,
    SerialManifest.Carries (first.implements name capability) (second.implements name capability)
  field? : ∀ field, SerialManifest.Carries (first.field? name field) (second.field? name field)

section Judging

variable {first second : TypeFacts Unit} {rules : EligibilityRules} {contract : FieldContract}
variable {name : String}

theorem carries_composes : Composes fun question answered => Carries question answered where
  pure value := .refl (Pure.pure value)
  bind carries others := carries.bind fun value _ => others value

theorem TypeFacts.Carries.relates (carries : first.Carries second name) :
    first.Relates (fun question answered => SerialManifest.Carries question answered) second name :=
  ⟨carries.kind, carries.isAbstract, carries.simpleName, carries.implements, carries.field?⟩

theorem TypeFacts.Carries.classify (carries : first.Carries second name) :
    SerialManifest.Carries (rules.classify first name) (rules.classify second name) :=
  carries.relates.classify carries_composes

theorem TypeFacts.Carries.check (carries : first.Carries second name) :
    SerialManifest.Carries (contract.check first name) (contract.check second name) :=
  carries.relates.check carries_composes

end Judging

namespace Classpath

variable {first second : FileTree} {classpath other : Classpath} {name : String}

/-- Two classpaths index and list the same types, and the class files of the types that can be reached from
a type are the same in both. -/
structure AgreesFrom (classpath : Classpath) (first : FileTree) (other : Classpath) (second : FileTree)
    (name : String) : Prop where
  names : ∀ type, type ∈ classpath.index.names ↔ type ∈ other.index.names
  platformTypes : classpath.platformTypes = other.platformTypes
  leafTypes : classpath.leafTypes = other.leafTypes
  definitions : ∀ type file, classpath.Reaches first name type →
    classpath.definition first type = .ok (some file) → other.definition second type = .ok (some file)

theorem AgreesFrom.definition (agrees : classpath.AgreesFrom first other second name) {type : String}
    (hr : classpath.Reaches first name type) {found : Option ClassFile}
    (h : classpath.definition first type = .ok found) : other.definition second type = .ok found := by
  cases found with
  | some file => exact agrees.definitions type file hr h
  | none =>
    have hn := definition_eq_ok_none_iff.1 h
    exact definition_eq_ok_none_iff.2 fun hm => hn ((agrees.names type).2 hm)

theorem AgreesFrom.hierarchy_carries (agrees : classpath.AgreesFrom first other second name) :
    (classpath.hierarchyAfresh first).Carries (other.hierarchyAfresh second) name where
  defined type := by rw [mem_defined_iff, mem_defined_iff, agrees.names, agrees.platformTypes]
  isLeaf := by simp only [hierarchyAfresh, hierarchy, agrees.leafTypes]
  above type supertypes hr ha := by
    rw [reaches_eq] at hr
    rw [above_eq] at ha ⊢
    obtain ⟨found, hd, he⟩ := Except.map_eq_ok_iff.1 ha
    refine Except.map_eq_ok_iff.2 ⟨found, agrees.definition hr hd, ?_⟩
    rw [← agrees.platformTypes]
    exact he

theorem AgreesFrom.required_carries (agrees : classpath.AgreesFrom first other second name) :
    Carries (classpath.requiredAfresh first name) (other.requiredAfresh second name) :=
  SerialManifest.Carries.bind (fun _ h => agrees.definition .refl h) fun _ _ => .refl _

theorem AgreesFrom.facts_carries (agrees : classpath.AgreesFrom first other second name) :
    (classpath.factsAfresh first).Carries (other.factsAfresh second) name where
  kind := agrees.required_carries.bind fun _ _ => .refl _
  isAbstract := agrees.required_carries.bind fun _ _ => .refl _
  simpleName := agrees.required_carries.bind fun _ _ => .refl _
  implements capability := agrees.required_carries.bind fun _ _ =>
    (agrees.hierarchy_carries.search capability).bind fun _ _ => .refl _
  field? _ := agrees.required_carries.bind fun _ _ => .refl _

end Classpath

end SerialManifest

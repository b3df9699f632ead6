import SerialManifest.Proofs.CatalogDescription
import SerialManifest.Proofs.ClasspathQuestions
import SerialManifest.Proofs.ScanFailures

namespace SerialManifest

theorem FailsAs.raised {ε ε' α : Type} {outcome : Except ε α} {raise : ε → ε'} {Kind : ε' → Prop}
    (h : ∀ error, Kind (raise error)) : FailsAs Kind (outcome.mapError raise) := by
  have hany : FailsAs (fun _ => True) outcome := fun _ _ => trivial
  exact hany.mapError fun error _ => h error

namespace Hierarchy

/-- What a search remembers that knows more leaves: nothing, if the other one remembers nothing, and else at most
a type that is unknown all the same. -/
structure Relieves (second : Hierarchy Unit) (before after : Option String) : Prop where
  none : before = none → after = none
  unknown : ∀ name, after = some name → name ∉ second.defined ∧ second.isLeaf name = false

theorem Relieves.refl_none (second : Hierarchy Unit) : second.Relieves .none .none :=
  ⟨fun _ => rfl, nofun⟩

/-- The other hierarchy is the same, but has more leaves. -/
structure MoreLeaves (first second : Hierarchy Unit) : Prop where
  defined : second.defined = first.defined
  above : second.above = first.above
  isLeaf : ∀ name, first.isLeaf name = true → second.isLeaf name = true

variable {first second : Hierarchy Unit}

theorem MoreLeaves.noted (more : first.MoreLeaves second) {name : String} (hd : name ∉ second.defined)
    {before after : Option String} (h : second.Relieves before after) :
    second.Relieves (first.noted before name) (second.noted after name) := by
  unfold Hierarchy.noted
  by_cases hl : second.isLeaf name = true
  · rw [if_pos hl]
    refine ⟨fun hb => h.none ?_, h.unknown⟩
    split at hb
    next => exact hb
    next => cases before <;> cases hb
  · rw [if_neg (mt (more.isLeaf name) hl), if_neg hl]
    refine ⟨fun hb => ?_, fun other ho => ?_⟩
    · cases before <;> cases hb
    · cases after with
      | some kept => exact h.unknown other ho
      | none =>
        cases ho
        exact ⟨hd, by simpa using hl⟩

theorem MoreLeaves.pairs (more : first.MoreLeaves second) (start : String) :
    first.Pairs (fun _ => False) second.Relieves second start where
  defined name _ := by rw [more.defined]
  above name _ := by
    rw [more.above]
    exact .same _
  noted name _ hd _ _ h := more.noted (by rwa [more.defined]) h

end Hierarchy

namespace Classpath

variable {classpath other : Classpath} {tree : FileTree} {cache cache' : ClassCache}

/-- The other classpath is the same, but more types are declared to be leaves. -/
structure MoreLeaves (classpath other : Classpath) : Prop where
  index : other.index = classpath.index
  platformTypes : other.platformTypes = classpath.platformTypes
  leafTypes : ∀ type ∈ classpath.leafTypes, type ∈ other.leafTypes

theorem Built.of_index (built : classpath.Built) (h : other.index = classpath.index) : other.Built := by
  have hbuilt : ∀ table leafTypes, (⟨classpath.index, table, leafTypes⟩ : Classpath).Built := by
    clear h
    induction built with
    | empty => exact fun table leafTypes => (Built.empty.withPlatformTypes table).withLeafTypes leafTypes
    | addRoot _ tree root ih => exact fun table leafTypes => (ih table leafTypes).addRoot tree root
    | withPlatformTypes _ _ ih => exact ih
    | withLeafTypes _ _ ih => exact ih
  obtain ⟨index, table, leafTypes⟩ := other
  cases h
  exact hbuilt table leafTypes

theorem definition_resolved (classpath : Classpath) (tree : FileTree) (name : String) :
    FailsAs (fun error => ¬ error.Unresolved) (classpath.definition tree name) := by
  have hunreadable : ∀ path fault, ¬ (QueryError.unreadable path fault).Unresolved := by
    rintro _ _ ⟨_, _, ⟨⟩⟩
  have harchive : ∀ error, ¬ (QueryError.archive error).Unresolved := by
    rintro _ ⟨_, _, ⟨⟩⟩
  have hmalformed : ∀ error, ¬ (QueryError.malformed name error).Unresolved := by
    rintro _ ⟨_, _, ⟨⟩⟩
  have hbytes : ∀ origin, FailsAs (fun error => ¬ error.Unresolved) (tree.definitionBytes origin) := by
    intro origin
    cases origin with
    | file path => exact .raised (hunreadable path)
    | entry path entry =>
      have hopen : FailsAs (fun error => ¬ error.Unresolved)
          ((tree.openArchive path).mapError QueryError.archive) :=
        .raised harchive
      exact hopen.bind fun archive _ => .raised harchive
  unfold definition
  cases classpath.index.origin? name with
  | none => exact .ok none
  | some origin =>
    exact (hbytes origin).bind fun bytes _ => .map some (.raised hmalformed)

theorem requiredAfresh_resolved (classpath : Classpath) (tree : FileTree) (name : String) :
    FailsAs (fun error => ¬ error.Unresolved) (outcomeOf (classpath.requiredAfresh tree name)) := by
  have hnotFound : ¬ (QueryError.typeNotFound name).Unresolved := by
    rintro ⟨_, _, ⟨⟩⟩
  rw [requiredAfresh, outcomeOf_bind, outcomeOf_told]
  refine (classpath.definition_resolved tree name).bind fun found _ => ?_
  cases found with
  | none => exact .error hnotFound
  | some file => exact .ok file

namespace MoreLeaves

variable (more : classpath.MoreLeaves other)
include more

theorem definition (name : String) : other.definition tree name = classpath.definition tree name := by
  unfold Classpath.definition
  rw [more.index]

theorem requiredAfresh (name : String) :
    other.requiredAfresh tree name = classpath.requiredAfresh tree name := by
  unfold Classpath.requiredAfresh
  rw [more.definition]

theorem hierarchy (tree : FileTree) :
    (classpath.hierarchyAfresh tree).MoreLeaves (other.hierarchyAfresh tree) where
  defined := by simp only [hierarchyAfresh, Classpath.hierarchy, more.index, more.platformTypes]
  above := funext fun name => by rw [above_eq, above_eq, more.definition, more.platformTypes]
  isLeaf name h := isLeaf_iff.2 ((isLeaf_iff.1 h).imp_right (more.leafTypes name))

end MoreLeaves

/-- An answer and what becomes of it with more leaves. -/
inductive Eases (other : Classpath) (name : String) : Except QueryError Bool → Except QueryError Bool → Prop where
  | same {answer : Except QueryError Bool} (h : FailsAs (fun error => ¬ error.Unresolved) answer) :
    Eases other name answer answer
  | resolved (supertype : String) : Eases other name (.error (.unresolvedSupertype name supertype)) (.ok false)
  | unresolved (supertype : String) {remaining : String} (h : other.Unknown remaining) :
    Eases other name (.error (.unresolvedSupertype name supertype))
      (.error (.unresolvedSupertype name remaining))

theorem Eases.sameUnless {name : String} {answer answer' : Except QueryError Bool}
    (h : other.Eases name answer answer') : SameUnless QueryError.Unresolved answer answer' := by
  cases h with
  | same => exact .same _
  | resolved supertype => exact .excused ⟨name, supertype, rfl⟩ _
  | unresolved supertype => exact .excused ⟨name, supertype, rfl⟩ _

theorem MoreLeaves.implements (more : classpath.MoreLeaves other) (tree : FileTree) (name capability : String) :
    other.Eases name (outcomeOf ((classpath.factsAfresh tree).implements name capability))
      (outcomeOf ((other.factsAfresh tree).implements name capability)) := by
  have hierarchies := more.hierarchy tree
  simp only [factsAfresh, outcomeOf_bind, more.requiredAfresh]
  have hresolved := classpath.requiredAfresh_resolved tree name
  cases hrequired : outcomeOf (classpath.requiredAfresh tree name) with
  | error error =>
    have hkind := hresolved error hrequired
    exact .same (FailsAs.error hkind)
  | ok file =>
    have concludes := (hierarchies.pairs name).search (.refl_none _) capability
    have verified := (classpath.hierarchyAfresh tree).search_verified name capability
    generalize outcomeOf ((classpath.hierarchyAfresh tree).search name capability) = verdict
      at concludes verified
    generalize outcomeOf ((other.hierarchyAfresh tree).search name capability) = verdict' at concludes
    cases concludes with
    | reached => exact .same (.ok true)
    | @exhausted before after h =>
      cases before with
      | none =>
        rw [h.none rfl]
        exact .same (.ok false)
      | some supertype =>
        cases after with
        | none => exact .resolved supertype
        | some remaining =>
          obtain ⟨hd, hl⟩ := h.unknown remaining rfl
          exact .unresolved supertype (unknown_of_not_mem hd hl)
    | failed error =>
      obtain ⟨type, _, _, habove⟩ := verified
      have hkind := classpath.definition_resolved tree type error (definition_of_above_eq_error habove)
      exact .same (FailsAs.error hkind)
    | excused he => exact he.elim

theorem MoreLeaves.told {α : Type} (more : classpath.MoreLeaves other) (name : String) (tell : ClassFile → α) :
    SameUnless QueryError.Unresolved (outcomeOf (do return tell (← classpath.requiredAfresh tree name)))
      (outcomeOf (do return tell (← other.requiredAfresh tree name))) := by
  rw [more.requiredAfresh]
  exact .same _

/-- Whatever is asked about a type, the answer is the same, unless it hangs on an unknown type. -/
theorem MoreLeaves.relates (more : classpath.MoreLeaves other) (tree : FileTree) (name : String) :
    (classpath.factsAfresh tree).Relates
      (fun action plain => SameUnless QueryError.Unresolved (outcomeOf action) (outcomeOf plain))
      (other.factsAfresh tree) name where
  kind := more.told name kindOf
  isAbstract := more.told name (·.access.isAbstract)
  simpleName := more.told name (·.simpleName)
  implements capability := (more.implements tree name capability).sameUnless
  field? field := more.told name (·.field? field)

/-- More leaf types only resolve. An answer that does not hang on an unknown type stays as it is, be it an answer
or an error, and one that does becomes a plain no or hangs on a type that is unknown all the same. So a scan that
does not end with an unknown type comes to the same, whether it succeeds or fails. -/
theorem answers_of_moreLeaves (built : classpath.Built) (more : classpath.MoreLeaves other)
    (faithful : cache.Faithful classpath tree) (faithful' : cache'.Faithful other tree) :
    (∀ name capability,
      let before := classpath.answer tree cache (.implements name capability)
      let after := other.answer tree cache' (.implements name capability)
      ((∀ supertype, before ≠ .error (.unresolvedSupertype name supertype)) → after = before) ∧
        ∀ supertype, before = .error (.unresolvedSupertype name supertype) → after = .ok false ∨
          ∃ remaining, other.Unknown remaining ∧ after = .error (.unresolvedSupertype name remaining)) ∧
    ∀ (scanner : Scanner) (roots : List String),
      let before := ((scanner.scan tree (classpath.facts tree) roots).run cache).1
      let after := ((scanner.scan tree (other.facts tree) roots).run cache').1
      (∀ type supertype, before.1 ≠ .error (.query (.unresolvedSupertype type supertype))) → after = before := by
  have built' := built.of_index more.index
  refine ⟨fun name capability => ?_, fun scanner roots => ?_⟩
  · intro before after
    have hbefore : before = classpath.answerAfresh tree (.implements name capability) :=
      answer_of_faithful built faithful _
    have hafter : after = other.answerAfresh tree (.implements name capability) :=
      answer_of_faithful built' faithful' _
    have eases : other.Eases name before after := by
      rw [hbefore, hafter]
      exact more.implements tree name capability
    clear_value before after
    cases eases with
    | same h => exact ⟨fun _ => rfl, fun supertype he => absurd ⟨name, supertype, rfl⟩ (h _ he)⟩
    | resolved supertype => exact ⟨fun hn => absurd rfl (hn supertype), fun _ _ => .inl rfl⟩
    | unresolved supertype h =>
      exact ⟨fun hn => absurd rfl (hn supertype), fun _ _ => .inr ⟨_, h, rfl⟩⟩
  · intro before after hn
    have hbefore : before = scanner.ended _ := Scanner.scan_gives (facts_follows built).settled faithful roots
    have hafter : after = scanner.ended _ := Scanner.scan_gives (facts_follows built').settled faithful' roots
    rw [hbefore] at hn ⊢
    rw [hafter]
    have hraise : ∀ error, QueryError.Unresolved error → ScanError.Unresolved (.query error) := by
      rintro _ ⟨type, supertype, rfl⟩
      exact ⟨type, supertype, rfl⟩
    have houtcome : SameUnless ScanError.Unresolved
        (scanner.outcome tree (.ofFacts scanner.rules scanner.contract (classpath.factsAfresh tree)) roots)
        (scanner.outcome tree (.ofFacts scanner.rules scanner.contract (other.factsAfresh tree)) roots) := by
      refine Scanner.outcome_sameUnless hraise fun _ _ candidate _ => ?_
      exact Verdicts.judge_sameUnless (more.relates tree candidate.name) _ _
    refine (Scanner.ended_eq houtcome fun error he => ?_).symm
    rintro ⟨type, supertype, rfl⟩
    exact hn type supertype he

/-- A serializable class with two interfaces of which nothing is known. -/
def forkedTree : FileTree :=
  .ofFiles "lib" [
    ("A.class", ClassFile.plainBytes "A" "java.lang.Object" ["java.io.Serializable", "F", "G"])]

/-- One leaf type leaves the other interface unresolved, and two resolve all. A scan that finds an interface
before it misses one is the same without leaf types and with them. -/
theorem answers_of_forkedTree :
    let types (leafTypes : List String) := (Classpath.empty.addRoot forkedTree "lib").1.withLeafTypes leafTypes
    let answer (leafTypes : List String) := (types leafTypes).answer forkedTree .empty (.implements "A" "H")
    let scan (leafTypes : List String) :=
      (((Scanner.fresh ⟨["A"], "java.io.Serializable", ["F"]⟩ (.version "serialVersionUID") "classes").scan
        forkedTree ((types leafTypes).facts forkedTree) ["lib"]).run .empty).1
    answer [] = .error (.unresolvedSupertype "A" "G") ∧
      answer ["G"] = .error (.unresolvedSupertype "A" "F") ∧ answer ["F", "G"] = .ok false ∧
      scan ["G"] = scan [] ∧ (scan []).1.toOption.map (·.tally) = some ⟨1, 1, 1, 0, 0⟩ := by
  intro types answer scan
  have built : (types []).Built := (Built.empty.addRoot forkedTree "lib").withLeafTypes []
  have more : (types []).MoreLeaves (types ["G"]) := ⟨rfl, rfl, nofun⟩
  have hscanned : (scan []).1.toOption.map (·.tally) = some ⟨1, 1, 1, 0, 0⟩ := by decide +kernel
  have hsame := (answers_of_moreLeaves built more (ClassCache.faithful_empty _ forkedTree)
    (ClassCache.faithful_empty _ forkedTree)).2
      (.fresh ⟨["A"], "java.io.Serializable", ["F"]⟩ (.version "serialVersionUID") "classes") ["lib"]
  refine ⟨by decide +kernel, by decide +kernel, by decide +kernel, hsame fun type supertype he => ?_, hscanned⟩
  obtain ⟨result, hresult, _⟩ := Option.map_eq_some_iff.1 hscanned
  cases (Except.toOption_eq_some_iff.1 hresult).symm.trans he

end Classpath

end SerialManifest

import SerialManifest.Proofs.ClasspathCache

namespace SerialManifest

namespace Classpath

variable {classpath : Classpath} {tree : FileTree}

/-- The direct supertypes of a type, if they can be told. -/
def supertypes? (classpath : Classpath) (tree : FileTree) (name : String) : Option (List String) :=
  match classpath.definition tree name with
  | .ok (some file) => some file.supertypes
  | .ok none =>
    classpath.platformTypes.lookup name <|>
      if name ∈ rootTypes ∨ name ∈ classpath.leafTypes then some [] else none
  | .error _ => none

def DirectSupertype (classpath : Classpath) (tree : FileTree) (name supertype : String) : Prop :=
  ∃ supertypes, classpath.supertypes? tree name = some supertypes ∧ supertype ∈ supertypes

/-- Zero or more steps to a direct supertype. -/
def Reaches (classpath : Classpath) (tree : FileTree) : String → String → Prop :=
  Relation.ReflTransGen (classpath.DirectSupertype tree)

def Resolved (classpath : Classpath) (tree : FileTree) (name : String) : Prop :=
  ∃ supertypes, classpath.supertypes? tree name = some supertypes

/-- A type that is neither indexed nor in the table nor a root or leaf type. -/
structure Unknown (classpath : Classpath) (name : String) : Prop where
  index : name ∉ classpath.index.names
  table : name ∉ classpath.platformTypes.map Prod.fst
  root : name ∉ rootTypes
  leaf : name ∉ classpath.leafTypes

/-- The class files of all indexed types that can be reached from a type can be read. -/
def ReadableFrom (classpath : Classpath) (tree : FileTree) (name : String) : Prop :=
  ∀ other, classpath.Reaches tree name other → other ∈ classpath.index.names →
    ∃ file, classpath.definition tree other = .ok (some file)

theorem lookup_eq_none_iff_not_mem {table : List (String × List String)} {name : String} :
    table.lookup name = none ↔ name ∉ table.map Prod.fst := by
  simp only [List.lookup_eq_none_iff, List.mem_map, not_exists, not_and, bne_iff_ne]
  exact ⟨fun h entry he hn => h entry he hn.symm, fun h entry he hn => h entry he hn.symm⟩

theorem definition_eq_ok_none_iff {name : String} :
    classpath.definition tree name = .ok none ↔ name ∉ classpath.index.names := by
  rw [← TypeIndex.origin?_eq_none_iff]
  unfold definition
  cases ho : classpath.index.origin? name with
  | none => simp
  | some origin =>
    dsimp only
    cases tree.definitionBytes origin with
    | error error => simp [Except.bind]
    | ok bytes =>
      simp only [Except.bind]
      cases ClassFile.parse bytes <;> simp [Except.map]

theorem mem_names_of_definition {name : String} {outcome : Except QueryError (Option ClassFile)}
    (h : classpath.definition tree name = outcome) (hne : outcome ≠ .ok none) :
    name ∈ classpath.index.names :=
  Decidable.byContradiction fun hn => hne (h.symm.trans (definition_eq_ok_none_iff.2 hn))

theorem supertypes?_of_error {name : String} {error : QueryError}
    (h : classpath.definition tree name = .error error) : classpath.supertypes? tree name = none := by
  simp [supertypes?, h]

theorem supertypes?_of_file {name : String} {file : ClassFile}
    (h : classpath.definition tree name = .ok (some file)) :
    classpath.supertypes? tree name = some file.supertypes := by
  simp [supertypes?, h]

theorem supertypes?_of_table {name : String} (hn : name ∉ classpath.index.names)
    (ht : name ∈ classpath.platformTypes.map Prod.fst) :
    classpath.supertypes? tree name = classpath.platformTypes.lookup name := by
  cases hl : classpath.platformTypes.lookup name with
  | none => exact absurd ht (lookup_eq_none_iff_not_mem.1 hl)
  | some supertypes => simp [supertypes?, definition_eq_ok_none_iff.2 hn, hl]

theorem supertypes?_of_leaf {name : String} (hn : name ∉ classpath.index.names)
    (ht : name ∉ classpath.platformTypes.map Prod.fst)
    (hl : name ∈ rootTypes ∨ name ∈ classpath.leafTypes) :
    classpath.supertypes? tree name = some [] := by
  simp [supertypes?, definition_eq_ok_none_iff.2 hn, lookup_eq_none_iff_not_mem.2 ht, hl]

theorem Unknown.supertypes? {name : String} (h : classpath.Unknown name) :
    classpath.supertypes? tree name = none := by
  simp [Classpath.supertypes?, definition_eq_ok_none_iff.2 h.index, lookup_eq_none_iff_not_mem.2 h.table,
    h.root, h.leaf]

theorem mem_defined_iff {name : String} : name ∈ (classpath.hierarchyAfresh tree).defined ↔
    name ∈ classpath.index.names ∨ name ∈ classpath.platformTypes.map Prod.fst := by
  simp [hierarchyAfresh, hierarchy]

theorem isLeaf_iff {name : String} : (classpath.hierarchyAfresh tree).isLeaf name = true ↔
    name ∈ rootTypes ∨ name ∈ classpath.leafTypes := by
  simp [hierarchyAfresh, hierarchy]

theorem above_eq (name : String) : (classpath.hierarchyAfresh tree).above name =
    (classpath.definition tree name).map fun
      | some file => file.supertypes
      | none => (classpath.platformTypes.lookup name).getD [] := by
  rw [Hierarchy.above, hierarchyAfresh, outcomeOf_bind, outcomeOf_told]
  cases classpath.definition tree name with
  | error error => rfl
  | ok found => cases found <;> rfl

theorem above_of_file {name : String} {file : ClassFile}
    (h : classpath.definition tree name = .ok (some file)) :
    (classpath.hierarchyAfresh tree).above name = .ok file.supertypes := by
  simp [above_eq, h, Except.map]

theorem above_of_table {name : String} {supertypes : List String} (hn : name ∉ classpath.index.names)
    (hl : classpath.platformTypes.lookup name = some supertypes) :
    (classpath.hierarchyAfresh tree).above name = .ok supertypes := by
  simp [above_eq, definition_eq_ok_none_iff.2 hn, hl, Except.map]

theorem supertypes?_eq_toOption {name : String} (h : name ∈ (classpath.hierarchyAfresh tree).defined) :
    classpath.supertypes? tree name = ((classpath.hierarchyAfresh tree).above name).toOption := by
  cases hd : classpath.definition tree name with
  | error error => simp [supertypes?_of_error hd, above_eq, hd, Except.map, Except.toOption]
  | ok found =>
    cases found with
    | some file => simp [supertypes?_of_file hd, above_of_file hd, Except.toOption]
    | none =>
      have hn := definition_eq_ok_none_iff.1 hd
      have ht := (mem_defined_iff.1 h).resolve_left hn
      cases hl : classpath.platformTypes.lookup name with
      | none => exact absurd ht (lookup_eq_none_iff_not_mem.1 hl)
      | some supertypes => simp [supertypes?_of_table hn ht, above_of_table hn hl, hl, Except.toOption]

theorem supertypes?_of_not_mem {name : String} (h : name ∉ (classpath.hierarchyAfresh tree).defined) :
    classpath.supertypes? tree name =
      if (classpath.hierarchyAfresh tree).isLeaf name = true then some [] else none := by
  rw [mem_defined_iff, not_or] at h
  by_cases hl : name ∈ rootTypes ∨ name ∈ classpath.leafTypes
  · rw [if_pos (isLeaf_iff.2 hl), supertypes?_of_leaf h.1 h.2 hl]
  · rw [if_neg (mt isLeaf_iff.1 hl)]
    rw [not_or] at hl
    exact Unknown.supertypes? ⟨h.1, h.2, hl.1, hl.2⟩

theorem above_iff_directSupertype {name supertype : String} :
    (classpath.hierarchyAfresh tree).Above name supertype ↔
      classpath.DirectSupertype tree name supertype := by
  unfold Hierarchy.Above DirectSupertype
  by_cases h : name ∈ (classpath.hierarchyAfresh tree).defined
  · simp only [h, true_and, supertypes?_eq_toOption h, Except.toOption_eq_some_iff]
  · rw [supertypes?_of_not_mem h]
    constructor
    · exact fun hm => absurd hm.1 h
    · rintro ⟨supertypes, he, hm⟩
      split at he
      next =>
        cases he
        cases hm
      next => cases he

theorem reaches_eq :
    (classpath.hierarchyAfresh tree).Reaches = classpath.Reaches tree := by
  have he : (classpath.hierarchyAfresh tree).Above = classpath.DirectSupertype tree :=
    funext fun _ => funext fun _ => propext above_iff_directSupertype
  rw [Hierarchy.Reaches, he, Reaches]

theorem known_iff_resolved {name : String} :
    (classpath.hierarchyAfresh tree).Known name ↔ classpath.Resolved tree name := by
  unfold Hierarchy.Known Resolved
  by_cases h : name ∈ (classpath.hierarchyAfresh tree).defined
  · simp only [h, true_and, not_true_eq_false, false_and, or_false, supertypes?_eq_toOption h,
      Except.toOption_eq_some_iff]
  · rw [supertypes?_of_not_mem h]
    simp [h]

theorem unknown_of_not_mem {name : String} (h : name ∉ (classpath.hierarchyAfresh tree).defined)
    (hl : (classpath.hierarchyAfresh tree).isLeaf name = false) : classpath.Unknown name := by
  rw [mem_defined_iff, not_or] at h
  have hn : ¬ (name ∈ rootTypes ∨ name ∈ classpath.leafTypes) := by
    intro hm
    cases hl.symm.trans (isLeaf_iff.2 hm)
  rw [not_or] at hn
  exact ⟨h.1, h.2, hn.1, hn.2⟩

/-- What the answer to the question for a capability tells. -/
def Answered (classpath : Classpath) (tree : FileTree) (name capability : String) :
    Except QueryError Bool → Prop
  | .ok true => name ∈ classpath.index.names ∧ classpath.Reaches tree name capability
  | .ok false => name ∈ classpath.index.names ∧ ¬ classpath.Reaches tree name capability ∧
      ∀ other, classpath.Reaches tree name other → classpath.Resolved tree other
  | .error error =>
    (name ∉ classpath.index.names ∧ error = .typeNotFound name) ∨
      (name ∈ classpath.index.names ∧ ¬ classpath.Reaches tree name capability ∧
        ∃ other, classpath.Reaches tree name other ∧ classpath.Unknown other ∧
          error = .unresolvedSupertype name other) ∨
      (name ∈ classpath.index.names ∧
        ∃ other, classpath.Reaches tree name other ∧ other ∈ classpath.index.names ∧
          classpath.definition tree other = .error error)

theorem definition_of_above_eq_error {name : String} {error : QueryError}
    (h : (classpath.hierarchyAfresh tree).above name = .error error) :
    classpath.definition tree name = .error error := by
  rw [above_eq] at h
  cases hd : classpath.definition tree name with
  | error other => simpa [hd, Except.map] using h
  | ok found => simp [hd, Except.map] at h

theorem implements_answered (classpath : Classpath) (tree : FileTree) (name capability : String) :
    classpath.Answered tree name capability
      (outcomeOf ((classpath.factsAfresh tree).implements name capability)) := by
  rw [factsAfresh, outcomeOf_bind, requiredAfresh, outcomeOf_bind, outcomeOf_told]
  cases hd : classpath.definition tree name with
  | error error =>
    have hm : name ∈ classpath.index.names := mem_names_of_definition hd (by simp)
    exact .inr (.inr ⟨hm, name, .refl, hm, hd⟩)
  | ok found =>
    cases found with
    | none => exact .inl ⟨definition_eq_ok_none_iff.1 hd, rfl⟩
    | some file =>
      have hm : name ∈ classpath.index.names := mem_names_of_definition hd (by simp)
      have hv := (classpath.hierarchyAfresh tree).search_verified name capability
      simp only [Except.bind, outcomeOf_pure, outcomeOf_bind]
      cases hs : outcomeOf ((classpath.hierarchyAfresh tree).search name capability) with
      | error error =>
        rw [hs] at hv
        obtain ⟨other, hr, _, ha⟩ := hv
        have he := definition_of_above_eq_error ha
        rw [reaches_eq] at hr
        exact .inr (.inr ⟨hm, other, hr, mem_names_of_definition he (by simp), he⟩)
      | ok verdict =>
        simp only [hs, Hierarchy.Verified, reaches_eq, known_iff_resolved] at hv
        cases verdict with
        | reached => exact ⟨hm, hv⟩
        | unreached => exact ⟨hm, hv⟩
        | unresolved other =>
          obtain ⟨hn, hr, hdefined, hl⟩ := hv
          exact .inr (.inl ⟨hm, hn, other, hr, unknown_of_not_mem hdefined hl, rfl⟩)

section Answered

variable {name capability : String} {answer : Except QueryError Bool}

theorem Answered.eq_typeNotFound (h : classpath.Answered tree name capability answer)
    (hn : name ∉ classpath.index.names) : answer = .error (.typeNotFound name) := by
  match answer, h with
  | .ok true, ⟨hm, _⟩ => exact absurd hm hn
  | .ok false, ⟨hm, _⟩ => exact absurd hm hn
  | .error error, .inl ⟨_, he⟩ => rw [he]
  | .error error, .inr (.inl ⟨hm, _⟩) => exact absurd hm hn
  | .error error, .inr (.inr ⟨hm, _⟩) => exact absurd hm hn

theorem Answered.of_true (h : classpath.Answered tree name capability answer) (he : answer = .ok true) :
    classpath.Reaches tree name capability := by
  subst he
  exact h.2

theorem Answered.of_false (h : classpath.Answered tree name capability answer) (he : answer = .ok false) :
    ¬ classpath.Reaches tree name capability ∧
      ∀ other, classpath.Reaches tree name other → classpath.Resolved tree other := by
  subst he
  exact h.2

/-- Where all that can be reached can be read, only an unknown type can keep the answer back. -/
theorem Answered.of_readable (h : classpath.Answered tree name capability answer)
    (hm : name ∈ classpath.index.names) (hr : classpath.ReadableFrom tree name) :
    answer = .ok true ∨ answer = .ok false ∨
      ¬ classpath.Reaches tree name capability ∧ ∃ other,
        answer = .error (.unresolvedSupertype name other) ∧
        classpath.Reaches tree name other ∧ classpath.Unknown other := by
  match answer, h with
  | .ok true, _ => exact .inl rfl
  | .ok false, _ => exact .inr (.inl rfl)
  | .error error, .inl ⟨hn, _⟩ => exact absurd hm hn
  | .error error, .inr (.inl ⟨_, hn, other, ho, hu, he⟩) =>
    exact .inr (.inr ⟨hn, other, by rw [he], ho, hu⟩)
  | .error error, .inr (.inr ⟨_, other, ho, hindexed, he⟩) =>
    obtain ⟨file, hf⟩ := hr other ho hindexed
    cases he.symm.trans hf

theorem Unknown.not_resolved (h : classpath.Unknown name) : ¬ classpath.Resolved tree name := by
  rintro ⟨supertypes, he⟩
  cases h.supertypes?.symm.trans he

end Answered

/-- Asking for a capability decides whether it can be reached. The search ends on every hierarchy, cyclic
ones included; its answers are right even where some class files cannot be read, and where all that can be
reached can be read, nothing but an unknown type keeps it from one. -/
theorem implements_decides_reachability {cache : ClassCache} (inUse : classpath.InUse tree cache)
    (name capability : String) :
    ∃ answer later,
      ((classpath.facts tree).implements name capability).run.run cache = (answer, later) ∧
      (name ∉ classpath.index.names → answer = .error (.typeNotFound name)) ∧
      (answer = .ok true → classpath.Reaches tree name capability) ∧
      (answer = .ok false → ¬ classpath.Reaches tree name capability ∧
        ∀ other, classpath.Reaches tree name other → classpath.Resolved tree other) ∧
      (name ∈ classpath.index.names → classpath.ReadableFrom tree name →
        (answer = .ok true ↔ classpath.Reaches tree name capability) ∧
        (answer = .ok false ↔ ¬ classpath.Reaches tree name capability ∧
          ∀ other, classpath.Reaches tree name other → classpath.Resolved tree other) ∧
        (answer ≠ .ok true → answer ≠ .ok false →
          ∃ other, answer = .error (.unresolvedSupertype name other) ∧
            classpath.Reaches tree name other ∧ classpath.Unknown other)) := by
  have ha := ((facts_follows inUse.built).implements name capability cache inUse.faithful).1
  have h := classpath.implements_answered tree name capability
  generalize outcomeOf ((classpath.factsAfresh tree).implements name capability) = answer at ha h
  refine ⟨answer, _, Prod.ext ha rfl, h.eq_typeNotFound, h.of_true, h.of_false, ?_⟩
  intro hm hreadable
  have hcases := h.of_readable hm hreadable
  refine ⟨⟨h.of_true, fun hr => ?_⟩, ⟨h.of_false, fun ⟨hn, hall⟩ => ?_⟩, fun ht hf => ?_⟩
  · rcases hcases with he | he | ⟨hn, _⟩
    · exact he
    · exact absurd hr (h.of_false he).1
    · exact absurd hr hn
  · rcases hcases with he | he | ⟨_, other, _, ho, hu⟩
    · exact absurd (h.of_true he) hn
    · exact he
    · exact absurd (hall other ho) hu.not_resolved
  · rcases hcases with he | he | ⟨_, hother⟩
    · exact absurd he ht
    · exact absurd he hf
    · exact hother

end Classpath

/-- The bytes of a public class without members, at slots 2 and 4 of its constants the class itself and its
superclass, and the interfaces at slots 6, 8 and so on. -/
def ClassFile.plainBytes (name superName : String) (interfaces : List String) : List UInt8 :=
  let short (n : Nat) : List UInt8 := [UInt8.ofNat (n / 256), UInt8.ofNat n]
  let named (index : Nat) (name : String) : List UInt8 :=
    let text := Text.Utf8.encode (String.ofList (Text.replace '.' '/' name.toList))
    1 :: short text.length ++ text ++ 7 :: short index
  let names := name :: superName :: interfaces
  [202, 254, 186, 190, 0, 0, 0, 52] ++ short (2 * names.length + 1) ++
    (names.mapIdx fun i name => named (2 * i + 1) name).flatten ++
    short 0x21 ++ short 2 ++ short 4 ++ short interfaces.length ++
    (interfaces.mapIdx fun i _ => short (2 * i + 6)).flatten ++ [0, 0, 0, 0, 0, 0]

def FileTree.ofFiles (directory : String) (files : List (String × List UInt8)) : FileTree :=
  files.foldl (fun tree (name, data) => tree.put [name, directory] (.file (.bytes data)))
    ((FileTree.around []).put [directory] .directory)

namespace Classpath

/-- Two classes that extend each other. -/
def cyclicTree : FileTree :=
  .ofFiles "lib" [
    ("A.class", ClassFile.plainBytes "A" "B" []),
    ("B.class", ClassFile.plainBytes "B" "A" ["java.io.Serializable"])]

/-- The search among types that extend each other ends, and rightly so. -/
theorem not_reaches_of_cyclicTree :
    ¬ (Classpath.empty.addRoot cyclicTree "lib").1.Reaches cyclicTree "A" "java.io.Externalizable" := by
  have inUse : (Classpath.empty.addRoot cyclicTree "lib").1.InUse cyclicTree .empty := .addRoot .fresh "lib"
  obtain ⟨answer, later, hrun, _, _, hno, _⟩ :=
    implements_decides_reachability inUse "A" "java.io.Externalizable"
  have hcomputed : (((((Classpath.empty.addRoot cyclicTree "lib").1.facts cyclicTree).implements "A"
      "java.io.Externalizable").run.run .empty).1).toOption = some false := by
    decide +kernel
  have ha : answer = .ok false := by
    rw [hrun] at hcomputed
    exact Except.toOption_eq_some_iff.1 hcomputed
  exact (hno ha).1

end Classpath

end SerialManifest

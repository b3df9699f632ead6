import Mathlib.Data.List.Induction
import SerialManifest.Proofs.ClasspathHierarchy
import SerialManifest.Proofs.ExcusedErrors
import SerialManifest.TypeFacts.Catalog

namespace SerialManifest

/-- What a class file tells of the type that it defines. -/
def ClassFile.describe (file : ClassFile) (name : String) : TypeDescription where
  name
  kind := Classpath.kindOf file
  isAbstract := file.access.isAbstract
  simpleName := file.simpleName
  supertypes := file.supertypes
  fields := file.fields

/-- A question that failed for want of an unknown type. -/
def QueryError.Unresolved (error : QueryError) : Prop :=
  ∃ name supertype, error = .unresolvedSupertype name supertype

def ScanError.Unresolved (error : ScanError) : Prop :=
  ∃ name supertype, error = .query (.unresolvedSupertype name supertype)

/-- The catalog holds the indexed types as their class files describe them, types that are listed but not
indexed with the supertypes in the table, and no others. -/
structure Catalog.Describes (catalog : Catalog) (classpath : Classpath) (tree : FileTree) : Prop where
  indexed : ∀ name file, classpath.definition tree name = .ok (some file) →
    catalog.type? name = some (file.describe name)
  listed : ∀ name supertypes, name ∉ classpath.index.names →
    classpath.platformTypes.lookup name = some supertypes →
      ∃ type, catalog.type? name = some type ∧ type.supertypes = supertypes
  others : ∀ name, name ∉ classpath.index.names → name ∉ classpath.platformTypes.map Prod.fst →
    catalog.type? name = none

theorem Catalog.type?_ofList (types : List TypeDescription) (name : String) :
    (ofList types).type? name = types.reverse.find? (·.name == name) := by
  induction types using List.reverseRecOn with
  | nil => rfl
  | append_singleton types type ih =>
    have hlast : ofList (types ++ [type]) = (ofList types).register type := by
      rw [ofList, List.foldl_append]
      rfl
    rw [hlast, type?_register, ih, List.reverse_concat, List.find?_cons]
    by_cases hn : name = type.name
    · rw [if_pos hn, beq_iff_eq.2 hn.symm]
    · rw [if_neg hn, beq_eq_false_iff_ne.2 (Ne.symm hn)]

theorem Catalog.type?_ofList_of_mem {types : List TypeDescription} {type : TypeDescription}
    (hm : type ∈ types) (unique : ∀ other ∈ types, other.name = type.name → other = type) :
    (ofList types).type? type.name = some type := by
  rw [type?_ofList]
  have hsome : (types.reverse.find? (·.name == type.name)).isSome = true :=
    List.find?_isSome.2 ⟨type, List.mem_reverse.2 hm, beq_self_eq_true type.name⟩
  obtain ⟨found, hf⟩ := Option.isSome_iff_exists.1 hsome
  have hname : found.name = type.name := by simpa using List.find?_some hf
  have hfound := List.mem_reverse.1 (List.mem_of_find?_eq_some hf)
  rw [hf, unique found hfound hname]

theorem Catalog.type?_ofList_of_not_mem {types : List TypeDescription} {name : String}
    (h : ∀ type ∈ types, type.name ≠ name) : (ofList types).type? name = none := by
  rw [type?_ofList, List.find?_eq_none]
  intro type hm hn
  exact h type (List.mem_reverse.1 hm) (beq_iff_eq.1 hn)

namespace Classpath

def description? (classpath : Classpath) (tree : FileTree) (name : String) : Option TypeDescription :=
  match classpath.definition tree name with
  | .ok (some file) => some (file.describe name)
  | .ok none => (classpath.platformTypes.lookup name).map fun supertypes =>
    { TypeDescription.ofName name with supertypes }
  | .error _ => none

def describedNames (classpath : Classpath) : List String :=
  classpath.index.names ++ (classpath.platformTypes.map Prod.fst).filter (· ∉ classpath.index.names)

def catalog (classpath : Classpath) (tree : FileTree) : Catalog :=
  .ofList (classpath.describedNames.filterMap (classpath.description? tree))

variable {classpath : Classpath} {tree : FileTree} {name : String}

theorem description?_of_file {file : ClassFile} (h : classpath.definition tree name = .ok (some file)) :
    classpath.description? tree name = some (file.describe name) := by
  rw [description?, h]

theorem description?_of_not_mem (h : name ∉ classpath.index.names) :
    classpath.description? tree name = (classpath.platformTypes.lookup name).map fun supertypes =>
      { TypeDescription.ofName name with supertypes } := by
  rw [description?, definition_eq_ok_none_iff.2 h]

theorem name_of_description? {type : TypeDescription} (h : classpath.description? tree name = some type) :
    type.name = name := by
  unfold description? at h
  split at h
  next =>
    cases h
    rfl
  next =>
    obtain ⟨supertypes, _, rfl⟩ := Option.map_eq_some_iff.1 h
    rfl
  next => cases h

theorem mem_describedNames {type : TypeDescription} (h : classpath.description? tree name = some type) :
    name ∈ classpath.describedNames := by
  by_cases hn : name ∈ classpath.index.names
  · exact List.mem_append_left _ hn
  · rw [description?_of_not_mem hn] at h
    obtain ⟨supertypes, hl, _⟩ := Option.map_eq_some_iff.1 h
    have ht : name ∈ classpath.platformTypes.map Prod.fst := by
      refine Decidable.byContradiction fun ht => ?_
      rw [lookup_eq_none_iff_not_mem.2 ht] at hl
      cases hl
    exact List.mem_append_right _ (List.mem_filter.2 ⟨ht, decide_eq_true hn⟩)

theorem type?_catalog (classpath : Classpath) (tree : FileTree) (name : String) :
    (classpath.catalog tree).type? name = classpath.description? tree name := by
  have hdescribed : ∀ other ∈ classpath.describedNames.filterMap (classpath.description? tree),
      other.name = name → classpath.description? tree name = some other := by
    rintro other hm rfl
    obtain ⟨known, _, hk⟩ := List.mem_filterMap.1 hm
    rw [name_of_description? hk, hk]
  cases hd : classpath.description? tree name with
  | none =>
    refine Catalog.type?_ofList_of_not_mem fun other hm hn => ?_
    cases hd.symm.trans (hdescribed other hm hn)
  | some type =>
    have hn := name_of_description? hd
    have hm := List.mem_filterMap.2 ⟨name, mem_describedNames hd, hd⟩
    rw [← hn]
    refine Catalog.type?_ofList_of_mem hm fun other ho hother => ?_
    exact (Option.some.inj (hd.symm.trans (hdescribed other ho (hother.trans hn)))).symm

theorem describes_catalog (classpath : Classpath) (tree : FileTree) :
    (classpath.catalog tree).Describes classpath tree where
  indexed name file hd := by
    rw [type?_catalog, description?_of_file hd]
  listed name supertypes hn hl := by
    rw [type?_catalog, description?_of_not_mem hn, hl]
    exact ⟨_, rfl, rfl⟩
  others name hn ht := by
    rw [type?_catalog, description?_of_not_mem hn, lookup_eq_none_iff_not_mem.2 ht]
    rfl

end Classpath

namespace Catalog

variable {catalog : Catalog} {name supertype capability : String} {type : TypeDescription}

theorem outcomeOf_require (h : catalog.type? name = some type) :
    outcomeOf (catalog.require name) = .ok type := by
  rw [require, h]
  rfl

theorem mem_defined_iff :
    name ∈ catalog.hierarchy.defined ↔ ∃ type, catalog.type? name = some type := by
  rw [type?, ← Option.isSome_iff_exists, List.find?_isSome]
  simp [hierarchy]

theorem above_of_type (h : catalog.type? name = some type) :
    catalog.hierarchy.above name = .ok type.supertypes := by
  rw [Hierarchy.above, hierarchy, outcomeOf_bind, outcomeOf_require h]
  rfl

theorem above_iff : catalog.hierarchy.Above name supertype ↔
    ∃ type, catalog.type? name = some type ∧ supertype ∈ type.supertypes := by
  rw [Hierarchy.Above, mem_defined_iff]
  constructor
  · rintro ⟨⟨type, ht⟩, supertypes, ha, hm⟩
    cases (above_of_type ht).symm.trans ha
    exact ⟨type, ht, hm⟩
  · rintro ⟨type, ht, hm⟩
    exact ⟨⟨type, ht⟩, type.supertypes, above_of_type ht, hm⟩

theorem implements_decided (h : catalog.type? name = some type) (capability : String) :
    (outcomeOf (catalog.facts.implements name capability) = .ok true ∧
      catalog.hierarchy.Reaches name capability) ∨
    (outcomeOf (catalog.facts.implements name capability) = .ok false ∧
      ¬ catalog.hierarchy.Reaches name capability) := by
  have hv := catalog.hierarchy.search_verified name capability
  rw [facts, outcomeOf_bind, outcomeOf_require h]
  change (outcomeOf (_ >>= _) = _ ∧ _) ∨ (outcomeOf (_ >>= _) = _ ∧ _)
  rw [outcomeOf_bind]
  cases hs : outcomeOf (catalog.hierarchy.search name capability) with
  | error error =>
    rw [hs] at hv
    obtain ⟨other, _, hdefined, ha⟩ := hv
    obtain ⟨described, ht⟩ := mem_defined_iff.1 hdefined
    cases (above_of_type ht).symm.trans ha
  | ok verdict =>
    rw [hs] at hv
    cases verdict with
    | reached => exact .inl ⟨rfl, hv⟩
    | unreached => exact .inr ⟨rfl, hv.1⟩
    | unresolved other =>
      obtain ⟨_, _, _, hleaf⟩ := hv
      cases hleaf

section Describes

variable {classpath : Classpath} {tree : FileTree}
variable (describes : catalog.Describes classpath tree)
variable (readable : ∀ name ∈ classpath.index.names, ∃ file, classpath.definition tree name = .ok (some file))
include describes readable

theorem Describes.directSupertype_iff : catalog.hierarchy.Above name supertype ↔
    classpath.DirectSupertype tree name supertype := by
  rw [above_iff, Classpath.DirectSupertype]
  -- root and leaf types are not in the catalog, and above them lies nothing in the classpath either
  by_cases hn : name ∈ classpath.index.names
  · obtain ⟨file, hd⟩ := readable name hn
    rw [describes.indexed name file hd, Classpath.supertypes?_of_file hd]
    simp [ClassFile.describe]
  · by_cases ht : name ∈ classpath.platformTypes.map Prod.fst
    · rw [Classpath.supertypes?_of_table hn ht]
      cases hl : classpath.platformTypes.lookup name with
      | none => exact absurd ht (Classpath.lookup_eq_none_iff_not_mem.1 hl)
      | some supertypes =>
        obtain ⟨type, hd, rfl⟩ := describes.listed name supertypes hn hl
        simp [hd]
    · rw [describes.others name hn ht]
      by_cases hl : name ∈ Classpath.rootTypes ∨ name ∈ classpath.leafTypes
      · rw [Classpath.supertypes?_of_leaf hn ht hl]
        simp
      · rw [not_or] at hl
        rw [Classpath.Unknown.supertypes? ⟨hn, ht, hl.1, hl.2⟩]
        simp

theorem Describes.reaches_eq : catalog.hierarchy.Reaches = classpath.Reaches tree := by
  have he : catalog.hierarchy.Above = classpath.DirectSupertype tree :=
    funext fun _ => funext fun _ => propext (describes.directSupertype_iff readable)
  rw [Hierarchy.Reaches, he, Classpath.Reaches]

theorem Describes.told_eq {α : Type} {tell : ClassFile → α} {tell' : TypeDescription → α}
    (same : ∀ file : ClassFile, tell' (file.describe name) = tell file)
    (hm : name ∈ classpath.index.names) :
    outcomeOf (do return tell (← classpath.requiredAfresh tree name)) =
      outcomeOf (do return tell' (← catalog.require name)) := by
  obtain ⟨file, hd⟩ := readable name hm
  have hdescribed := outcomeOf_require (describes.indexed name file hd)
  rw [Classpath.told_eq_ok_iff.2 ⟨file, hd, rfl⟩, outcomeOf_bind, hdescribed, ← same]
  rfl

/-- Only an unknown type makes a difference, and then the catalog says no. -/
theorem Describes.implements_cases (hm : name ∈ classpath.index.names) (capability : String) :
    (∃ has, outcomeOf ((classpath.factsAfresh tree).implements name capability) = .ok has ∧
      outcomeOf (catalog.facts.implements name capability) = .ok has) ∨
    (∃ other, outcomeOf ((classpath.factsAfresh tree).implements name capability) =
      .error (.unresolvedSupertype name other)) ∧
        outcomeOf (catalog.facts.implements name capability) = .ok false := by
  obtain ⟨file, hd⟩ := readable name hm
  have hanswered := classpath.implements_answered tree name capability
  have hcases := hanswered.of_readable hm fun other _ ho => readable other ho
  have hdecided := implements_decided (describes.indexed name file hd) capability
  rw [describes.reaches_eq readable] at hdecided
  rcases hcases with ht | hf | ⟨hn, other, he, _, _⟩
  · rcases hdecided with ⟨hc, _⟩ | ⟨_, hn⟩
    · exact .inl ⟨true, ht, hc⟩
    · exact absurd (hanswered.of_true ht) hn
  · rcases hdecided with ⟨_, hr⟩ | ⟨hc, _⟩
    · exact absurd hr (hanswered.of_false hf).1
    · exact .inl ⟨false, hf, hc⟩
  · rcases hdecided with ⟨_, hr⟩ | ⟨hc, _⟩
    · exact absurd hr hn
    · exact .inr ⟨⟨other, he⟩, hc⟩

theorem Describes.relates (hm : name ∈ classpath.index.names) : (classpath.factsAfresh tree).Relates
    (fun action plain => SameUnless QueryError.Unresolved (outcomeOf action) (outcomeOf plain))
      catalog.facts name where
  kind := describes.told_eq readable (fun _ => rfl) hm ▸ .same _
  isAbstract := describes.told_eq readable (fun _ => rfl) hm ▸ .same _
  simpleName := describes.told_eq readable (fun _ => rfl) hm ▸ .same _
  field? field := describes.told_eq readable (fun _ => rfl) hm ▸ .same _
  implements capability := by
    rcases describes.implements_cases readable hm capability with ⟨has, ha, hc⟩ | ⟨⟨other, ha⟩, _⟩
    · rw [ha, hc]
      exact .same _
    · rw [ha]
      exact .excused ⟨name, other, rfl⟩ _

end Describes

end Catalog

namespace Classpath

variable {classpath : Classpath} {tree : FileTree}

/-- The root was indexed at some time, on these files. -/
inductive HasIndexed (tree : FileTree) (root : String) : Classpath → Prop where
  | addRoot (classpath : Classpath) : HasIndexed tree root (classpath.addRoot tree root).1
  | andRoot {classpath : Classpath} (h : HasIndexed tree root classpath) (tree' : FileTree)
    (other : String) : HasIndexed tree root (classpath.addRoot tree' other).1
  | withPlatformTypes {classpath : Classpath} (h : HasIndexed tree root classpath)
    (table : List (String × List String)) : HasIndexed tree root (classpath.withPlatformTypes table)
  | withLeafTypes {classpath : Classpath} (h : HasIndexed tree root classpath) (types : List String) :
    HasIndexed tree root (classpath.withLeafTypes types)

theorem HasIndexed.mem_names {root : String} (indexed : HasIndexed tree root classpath) :
    ∀ candidate ∈ (tree.walk root).found, candidate.name ∈ classpath.index.names := by
  induction indexed with
  | addRoot classpath =>
    intro candidate hm
    exact TypeIndex.mem_names_insertAll.2 (.inr ⟨candidate, hm, rfl⟩)
  | andRoot _ _ _ ih =>
    intro candidate hm
    exact TypeIndex.mem_names_insertAll.2 (.inl (ih candidate hm))
  | withPlatformTypes _ _ ih => exact ih
  | withLeafTypes _ _ ih => exact ih

/-- The catalog answers questions about a type as the classpath does. Where the classpath misses an unknown
type, it takes the capability for one that the type does not have. -/
structure MatchedBy (classpath : Classpath) (tree : FileTree) (cache : ClassCache) (catalog : Catalog)
    (name : String) : Prop where
  kind : (((classpath.facts tree).kind name).run.run cache).1 = outcomeOf (catalog.facts.kind name)
  isAbstract : (((classpath.facts tree).isAbstract name).run.run cache).1 =
    outcomeOf (catalog.facts.isAbstract name)
  simpleName : (((classpath.facts tree).simpleName name).run.run cache).1 =
    outcomeOf (catalog.facts.simpleName name)
  field? : ∀ field, (((classpath.facts tree).field? name field).run.run cache).1 =
    outcomeOf (catalog.facts.field? name field)
  implements_ok : ∀ capability has,
    (((classpath.facts tree).implements name capability).run.run cache).1 = .ok has →
      outcomeOf (catalog.facts.implements name capability) = .ok has
  implements_true : ∀ capability, outcomeOf (catalog.facts.implements name capability) = .ok true →
    (((classpath.facts tree).implements name capability).run.run cache).1 = .ok true
  implements_unresolved : ∀ capability type supertype,
    (((classpath.facts tree).implements name capability).run.run cache).1 =
      .error (.unresolvedSupertype type supertype) →
      outcomeOf (catalog.facts.implements name capability) = .ok false

theorem matchedBy_of_describes {cache : ClassCache} {catalog : Catalog} {name : String}
    (inUse : classpath.InUse tree cache)
    (readable : ∀ name ∈ classpath.index.names, ∃ file, classpath.definition tree name = .ok (some file))
    (describes : catalog.Describes classpath tree) (hm : name ∈ classpath.index.names) :
    classpath.MatchedBy tree cache catalog name := by
  have follows : (classpath.facts tree).Follows (ClassCache.Faithful classpath tree)
      (classpath.factsAfresh tree) := facts_follows inUse.built
  have faithful := inUse.faithful
  have himplements : ∀ capability,
      (((classpath.facts tree).implements name capability).run.run cache).1 =
        outcomeOf ((classpath.factsAfresh tree).implements name capability) :=
    fun capability => (follows.implements name capability cache faithful).1
  have hcases := describes.implements_cases readable hm
  refine ⟨?_, ?_, ?_, fun field => ?_, fun capability has he => ?_, fun capability ht => ?_,
    fun capability type supertype he => ?_⟩
  · rw [(follows.kind name cache faithful).1]
    exact describes.told_eq readable (fun _ => rfl) hm
  · rw [(follows.isAbstract name cache faithful).1]
    exact describes.told_eq readable (fun _ => rfl) hm
  · rw [(follows.simpleName name cache faithful).1]
    exact describes.told_eq readable (fun _ => rfl) hm
  · rw [(follows.field? name field cache faithful).1]
    exact describes.told_eq readable (fun _ => rfl) hm
  · rw [himplements] at he
    rcases hcases capability with ⟨other, ho, hc⟩ | ⟨⟨_, ho⟩, _⟩
    · cases ho.symm.trans he
      exact hc
    · cases ho.symm.trans he
  · rw [himplements]
    rcases hcases capability with ⟨has, ho, hc⟩ | ⟨_, hc⟩
    · cases hc.symm.trans ht
      exact ho
    · cases hc.symm.trans ht
  · rw [himplements] at he
    rcases hcases capability with ⟨has, ho, _⟩ | ⟨_, hc⟩
    · cases ho.symm.trans he
    · exact hc

/-- Describing types instead of reading their class files makes no difference to questions about them, but
for those that nobody can answer who does not know some supertype. A scan of indexed roots that does not fail
for want of such a type ends in the same way. -/
theorem scan_of_describes {cache : ClassCache} {catalog : Catalog} (inUse : classpath.InUse tree cache)
    (readable : ∀ name ∈ classpath.index.names, ∃ file, classpath.definition tree name = .ok (some file))
    (describes : catalog.Describes classpath tree) :
    (∀ name ∈ classpath.index.names, classpath.MatchedBy tree cache catalog name) ∧
    ∀ (scanner : Scanner) (roots : List String), (∀ root ∈ roots, HasIndexed tree root classpath) →
      let ended := ((scanner.scan tree (classpath.facts tree) roots).run cache).1
      (∀ type supertype, ended.1 ≠ .error (.query (.unresolvedSupertype type supertype))) →
        ended = ((scanner.scan tree catalog.facts roots).run ()).1 := by
  refine ⟨fun name hm => matchedBy_of_describes inUse readable describes hm, ?_⟩
  intro scanner roots hroots ended hn
  have hended : ended = scanner.ended _ :=
    Scanner.scan_gives (facts_follows inUse.built).settled inUse.faithful roots
  have hdescribed : ((scanner.scan tree catalog.facts roots).run ()).1 = scanner.ended _ :=
    Scanner.scan_gives catalog.facts.follows_self.settled trivial roots
  have hraise : ∀ error, QueryError.Unresolved error → ScanError.Unresolved (.query error) := by
    rintro _ ⟨type, supertype, rfl⟩
    exact ⟨type, supertype, rfl⟩
  rw [hended] at hn ⊢
  rw [hdescribed]
  refine Scanner.ended_eq (Scanner.outcome_sameUnless hraise fun root hr candidate hm => ?_) ?_
  · have hindexed := (hroots root hr).mem_names candidate hm
    exact Verdicts.judge_sameUnless (describes.relates readable hindexed) scanner.rules scanner.contract
  · rintro _ he ⟨type, supertype, rfl⟩
    exact hn type supertype he

/-- Two classes that extend each other, described instead of read. -/
theorem scan_of_catalog_of_cyclicTree :
    let rules : EligibilityRules := ⟨["A", "B"], "java.io.Serializable", ["java.io.Externalizable"]⟩
    let scanner := Scanner.fresh rules (.version "serialVersionUID") "classes"
    let classpath := (Classpath.empty.addRoot cyclicTree "lib").1
    ∃ result,
      ((scanner.scan cyclicTree (classpath.facts cyclicTree) ["lib"]).run .empty).1.1 = .ok result ∧
      ((scanner.scan cyclicTree (classpath.catalog cyclicTree).facts ["lib"]).run ()).1.1 = .ok result ∧
      result.manifest = ["A", "B"] := by
  intro rules scanner classpath
  have hscanned : ((scanner.scan cyclicTree (classpath.facts cyclicTree) ["lib"]).run
      .empty).1.1.toOption.map (·.manifest) = some ["A", "B"] := by
    decide +kernel
  obtain ⟨result, hr, hm⟩ := Option.map_eq_some_iff.1 hscanned
  have hscan := Except.toOption_eq_some_iff.1 hr
  have inUse : classpath.InUse cyclicTree .empty := .addRoot .fresh "lib"
  have readable : ∀ name ∈ classpath.index.names, ∃ file,
      classpath.definition cyclicTree name = .ok (some file) := by
    have hread : ∀ name ∈ classpath.index.names,
        ((classpath.definition cyclicTree name).toOption.bind id).isSome = true := by
      decide +kernel
    intro name hn
    obtain ⟨file, hf⟩ := Option.isSome_iff_exists.1 (hread name hn)
    obtain ⟨found, hd, rfl⟩ := Option.bind_eq_some_iff.1 hf
    exact ⟨file, Except.toOption_eq_some_iff.1 hd⟩
  have hroots : ∀ root ∈ ["lib"], HasIndexed cyclicTree root classpath := by
    intro root hroot
    rw [List.mem_singleton.1 hroot]
    exact .addRoot .empty
  have hended := (scan_of_describes inUse readable (describes_catalog classpath cyclicTree)).2 scanner
    ["lib"] hroots
  have hfails : ∀ type supertype,
      ((scanner.scan cyclicTree (classpath.facts cyclicTree) ["lib"]).run .empty).1.1 ≠
        .error (.query (.unresolvedSupertype type supertype)) := by
    intro type supertype he
    cases hscan.symm.trans he
  exact ⟨result, hscan, hended hfails ▸ hscan, hm⟩

end Classpath

end SerialManifest

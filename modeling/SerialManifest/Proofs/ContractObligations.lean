import Mathlib.Data.Nat.Bitwise
import SerialManifest.Proofs.ManifestMembership
import SerialManifest.Proofs.ViolationSubjects

namespace SerialManifest

theorem AccessFlags.contains_eq_false_iff {flags : AccessFlags} {mask : UInt16} {i : Nat}
    (h : mask.toNat = 2 ^ i) : flags.contains mask = false ↔ flags.bits &&& mask = 0 := by
  have hand : (flags.bits &&& mask).toNat = (flags.bits.toNat.testBit i).toNat * 2 ^ i := by
    rw [UInt16.toNat_and, h, Nat.and_two_pow]
  have hpos : 0 < 2 ^ i := Nat.two_pow_pos i
  rw [contains, beq_eq_false_iff_ne, ne_eq, ← UInt16.toNat_inj, ← UInt16.toNat_inj, hand, h]
  cases flags.bits.toNat.testBit i with
  | true => simp
  | false => simp [hpos.ne]

/-- A class of which there can be instances and that has a name of its own: neither an interface nor abstract,
no type that is marked as an enum and extends the base of all enums, and not anonymous. -/
structure ClassFile.Concrete (file : ClassFile) : Prop where
  interface : file.access.bits &&& 0x0200 = 0
  abstract : file.access.bits &&& 0x0400 = 0
  enum : ¬ (file.access.bits &&& 0x4000 ≠ 0 ∧ file.superName = some "java.lang.Enum")
  named : file.simpleName ≠ ""

/-- The class file at the place where a type was found first, if it can be read. -/
def FileTree.firstClassFile? (tree : FileTree) (roots : List String) (name : String) : Option ClassFile :=
  (Candidate.firstNamed? (tree.findings roots) name).bind tree.classFileAt?

/-- What keeps a class from declaring a static final `long` field of this name. The first field of the name
counts. -/
def ClassFile.versionFaults (file : ClassFile) (fieldName : String) : List ViolationKind :=
  match file.fields.find? (·.name == fieldName) with
  | none => [.missingField]
  | some field =>
    (if field.descriptor = "J" then [] else [.wrongFieldType]) ++
    (if field.access.bits &&& 0x0008 = 0 then [.nonStaticField] else []) ++
    (if field.access.bits &&& 0x0010 = 0 then [.nonFinalField] else [])

/-- The class declares a static final `long` field of this name. -/
def ClassFile.DeclaresVersion (file : ClassFile) (fieldName : String) : Prop :=
  ∃ field, file.fields.find? (·.name == fieldName) = some field ∧ field.descriptor = "J" ∧
    field.access.bits &&& 0x0008 ≠ 0 ∧ field.access.bits &&& 0x0010 ≠ 0

theorem ClassFile.versionFaults_eq_nil_iff {file : ClassFile} {fieldName : String} :
    file.versionFaults fieldName = [] ↔ file.DeclaresVersion fieldName := by
  unfold versionFaults DeclaresVersion
  cases file.fields.find? (·.name == fieldName) with
  | none => simp
  | some field => simp

theorem FieldContract.broken_version (file : ClassFile) (fieldName : String) :
    (version fieldName).broken (file.field? fieldName) = file.versionFaults fieldName := by
  unfold ClassFile.versionFaults ClassFile.field?
  cases file.fields.find? (·.name == fieldName) with
  | none => rfl
  | some field =>
    have hstatic : (!field.access.isStatic) = true ↔ field.access.bits &&& 0x0008 = 0 := by
      rw [Bool.not_eq_true']
      exact AccessFlags.contains_eq_false_iff (i := 3) rfl
    have hfinal : (!field.access.isFinal) = true ↔ field.access.bits &&& 0x0010 = 0 := by
      rw [Bool.not_eq_true']
      exact AccessFlags.contains_eq_false_iff (i := 4) rfl
    refine congrArg₂ (· ++ ·) (congrArg₂ (· ++ ·) rfl ?_) ?_
    · exact if_congr hstatic rfl rfl
    · exact if_congr hfinal rfl rfl

namespace EligibilityRules

variable {rules : EligibilityRules} {facts : TypeFacts Unit} {name : String}

theorem isContractCheckable_eq_true_iff : outcomeOf (rules.isContractCheckable facts name) = .ok true ↔
    outcomeOf (facts.kind name) = .ok .ordinaryClass ∧ outcomeOf (facts.isAbstract name) = .ok false ∧
      (∃ simpleName, outcomeOf (facts.simpleName name) = .ok simpleName ∧ simpleName ≠ "") ∧
      rules.productNamespace?.any (Text.startsWith name) = true := by
  rw [isContractCheckable, outcomeOf_bind, Except.bind_eq_ok_iff]
  constructor
  · rintro ⟨kind, hkind, h⟩
    split at h
    next => cases h
    next hordinary =>
      rw [outcomeOf_bind, Except.bind_eq_ok_iff] at h
      obtain ⟨isAbstract, habstract, h⟩ := h
      split at h
      next => cases h
      next hconcrete =>
        rw [outcomeOf_bind, Except.bind_eq_ok_iff] at h
        obtain ⟨simpleName, hname, h⟩ := h
        split at h
        next => cases h
        next hne =>
          have hproduct := Except.ok.inj h
          rw [Decidable.not_not] at hordinary
          rw [Bool.not_eq_true] at hconcrete
          exact ⟨hordinary ▸ hkind, hconcrete ▸ habstract, ⟨simpleName, hname, hne⟩, hproduct⟩
  · rintro ⟨hkind, habstract, ⟨simpleName, hname, hne⟩, hproduct⟩
    refine ⟨.ordinaryClass, hkind, ?_⟩
    rw [if_neg (by simp), outcomeOf_bind, habstract]
    change outcomeOf (if false = true then _ else _) = _
    rw [if_neg Bool.false_ne_true, outcomeOf_bind, hname]
    change outcomeOf (if simpleName = "" then _ else _) = _
    rw [if_neg hne, outcomeOf_pure, hproduct]

theorem contractCheckable_iff {eligibility : Eligibility}
    (h : outcomeOf (rules.classify facts name) = .ok eligibility) :
    eligibility = .contractCheckable ↔
      eligibility.inManifest = true ∧ outcomeOf (rules.isContractCheckable facts name) = .ok true := by
  unfold classify at h
  split at h
  next =>
    cases h
    simp [Eligibility.inManifest]
  next =>
    rw [outcomeOf_bind, Except.bind_eq_ok_iff] at h
    obtain ⟨admitted, _, h⟩ := h
    split at h
    next =>
      rw [outcomeOf_bind, Except.bind_eq_ok_iff] at h
      obtain ⟨checkable, hc, h⟩ := h
      rw [hc]
      cases checkable <;> cases h <;> simp [Eligibility.inManifest]
    next =>
      cases h
      simp [Eligibility.inManifest]

end EligibilityRules

namespace Classpath

variable {classpath : Classpath} {tree : FileTree} {rules : EligibilityRules} {name : String}

theorem kindOf_eq_ordinaryClass_iff {file : ClassFile} : kindOf file = .ordinaryClass ↔
    file.access.isInterface = false ∧
      ¬ (file.access.isEnum = true ∧ file.superName = some enumBase) := by
  unfold kindOf
  cases file.access.isInterface with
  | true => simp
  | false =>
    by_cases henum : file.access.isEnum = true ∧ file.superName = some enumBase
    · simp [henum.1, henum.2]
    · have hb : (file.access.isEnum && file.superName == some enumBase) = false := by
        simpa using henum
      simp [hb, henum]

theorem concrete_iff {file : ClassFile} : file.Concrete ↔
    kindOf file = .ordinaryClass ∧ file.access.isAbstract = false ∧ file.simpleName ≠ "" := by
  have hinterface : file.access.isInterface = false ↔ file.access.bits &&& 0x0200 = 0 :=
    AccessFlags.contains_eq_false_iff (i := 9) rfl
  have habstract : file.access.isAbstract = false ↔ file.access.bits &&& 0x0400 = 0 :=
    AccessFlags.contains_eq_false_iff (i := 10) rfl
  have henum : file.access.isEnum = true ↔ file.access.bits &&& 0x4000 ≠ 0 := by
    rw [← Bool.not_eq_false, ne_eq, not_iff_not]
    exact AccessFlags.contains_eq_false_iff (i := 14) rfl
  rw [kindOf_eq_ordinaryClass_iff, hinterface, habstract, henum]
  constructor
  · exact fun h => ⟨⟨h.interface, h.enum⟩, h.abstract, h.named⟩
  · rintro ⟨⟨hi, he⟩, ha, hn⟩
    exact ⟨hi, ha, he, hn⟩

/-- Whether a type is held to the contract can be told from its class file. -/
theorem isContractCheckable_iff_concrete :
    outcomeOf (rules.isContractCheckable (classpath.factsAfresh tree) name) = .ok true ↔
      (∃ file, classpath.definition tree name = .ok (some file) ∧ file.Concrete) ∧
        ∃ lead, rules.namespaces.head? = some lead ∧ ∃ rest, name.toList = lead.toList ++ rest := by
  rw [EligibilityRules.isContractCheckable_eq_true_iff]
  simp only [factsAfresh, told_eq_ok_iff, concrete_iff]
  have hproduct : rules.productNamespace?.any (Text.startsWith name) = true ↔
      ∃ lead, rules.namespaces.head? = some lead ∧ ∃ rest, name.toList = lead.toList ++ rest := by
    simp only [Option.any_eq_true, EligibilityRules.productNamespace?, Text.startsWith_iff]
  rw [hproduct, ← and_assoc, ← and_assoc]
  -- the three questions find one and the same class file, since a name has one definition that counts
  refine and_congr_left' ?_
  constructor
  · rintro ⟨⟨⟨file, hd, hkind⟩, other, ho, habstract⟩, _, ⟨third, ht, rfl⟩, hne⟩
    cases hd.symm.trans ho
    cases hd.symm.trans ht
    exact ⟨file, hd, hkind, habstract, hne⟩
  · rintro ⟨file, hd, hkind, habstract, hne⟩
    exact ⟨⟨⟨file, hd, hkind⟩, file, hd, habstract⟩, _, ⟨file, hd, rfl⟩, hne⟩

theorem check_of_definition {contract : FieldContract} {file : ClassFile}
    (h : classpath.definition tree name = .ok (some file)) :
    outcomeOf (contract.check (classpath.factsAfresh tree) name) =
      .ok ((contract.broken (file.field? contract.fieldName)).map fun kind =>
        ⟨name, kind, contract.describe name kind⟩) := by
  have hfield : outcomeOf ((classpath.factsAfresh tree).field? name contract.fieldName) =
      .ok (file.field? contract.fieldName) := told_eq_ok_iff.2 ⟨file, h, rfl⟩
  rw [FieldContract.check, outcomeOf_bind, hfield]
  rfl

theorem definition_iff_firstClassFile? {roots leafTypes : List String} {table : List (String × List String)}
    {file : ClassFile}
    (h : (ofRoots tree roots).map
      (fun indexed => (indexed.withPlatformTypes table).withLeafTypes leafTypes) = .ok classpath) :
    classpath.definition tree name = .ok (some file) ↔ tree.firstClassFile? roots name = some file := by
  obtain ⟨indexed, hroots, rfl⟩ := Except.map_eq_ok_iff.1 h
  obtain ⟨_, rfl⟩ := addRoots_eq_ok_iff.1 hroots
  have hfirst : (TypeIndex.empty.insertAll (tree.findings roots)).origin? name =
      Candidate.firstNamed? (tree.findings roots) name :=
    TypeIndex.origin?_insertAll .empty (tree.findings roots) name
  rw [definition_eq_some_iff, FileTree.firstClassFile?, Option.bind_eq_some_iff, ← hfirst]
  rfl

end Classpath

/-- A type that is held to the contract, and the class file that it goes by. -/
structure ScanResult.HoldsToContract (result : ScanResult) (rules : EligibilityRules) (tree : FileTree)
    (roots : List String) (name : String) (file : ClassFile) : Prop where
  listed : name ∈ result.manifest
  product : ∃ lead, rules.namespaces.head? = some lead ∧ ∃ rest, name.toList = lead.toList ++ rest
  definition : tree.firstClassFile? roots name = some file
  concrete : file.Concrete

namespace Scanner

variable {scanner : Scanner} {classpath : Classpath} {tree : FileTree} {roots leafTypes : List String}
variable {table : List (String × List String)} {result : ScanResult} {name : String}

section Held

variable
  (hindexed : (Classpath.ofRoots tree roots).map
    (fun indexed => (indexed.withPlatformTypes table).withLeafTypes leafTypes) = .ok classpath)
  (houtcome : scanner.outcome tree
    (.ofFacts scanner.rules scanner.contract (classpath.factsAfresh tree)) roots = .ok result)
include hindexed houtcome

theorem judged_of_held {file : ClassFile} (held : result.HoldsToContract scanner.rules tree roots name file) :
    (judged (.ofFacts scanner.rules scanner.contract (classpath.factsAfresh tree)) name).violations =
      (scanner.contract.broken (file.field? scanner.contract.fieldName)).map fun kind =>
        ⟨name, kind, scanner.contract.describe name kind⟩ := by
  obtain ⟨_, judgement, hj, hlisted⟩ := (mem_manifest_iff houtcome name).1 held.listed
  have hd := (Classpath.definition_iff_firstClassFile? hindexed).2 held.definition
  have hcheckable := Classpath.isContractCheckable_iff_concrete.2 ⟨⟨file, hd, held.concrete⟩, held.product⟩
  have heligible := (EligibilityRules.contractCheckable_iff (Verdicts.of_judge hj)).2 ⟨hlisted, hcheckable⟩
  have hviolations := Verdicts.violations_of_judge hj heligible
  rw [judged_of_judge hj]
  exact Except.ok.inj (hviolations.symm.trans (Classpath.check_of_definition hd))

theorem judged_of_not_held {candidate : Candidate} (hm : candidate ∈ tree.findings roots)
    (h : ¬ ∃ file, result.HoldsToContract scanner.rules tree roots candidate.name file) :
    (judged (.ofFacts scanner.rules scanner.contract (classpath.factsAfresh tree))
      candidate.name).violations = [] := by
  have hj := judge_of_found houtcome hm
  refine Verdicts.violations_eq_nil_of_judge hj fun heligible => h ?_
  obtain ⟨hlisted, hcheckable⟩ :=
    (EligibilityRules.contractCheckable_iff (Verdicts.of_judge hj)).1 heligible
  obtain ⟨⟨file, hd, hconcrete⟩, hproduct⟩ := Classpath.isContractCheckable_iff_concrete.1 hcheckable
  obtain ⟨root, hr, hfound⟩ := FileTree.mem_findings.1 hm
  have hmanifest : candidate.name ∈ result.manifest :=
    (mem_manifest_iff houtcome candidate.name).2 ⟨⟨root, hr, candidate, hfound, rfl⟩, _, hj, hlisted⟩
  exact ⟨file, hmanifest, hproduct, (Classpath.definition_iff_firstClassFile? hindexed).1 hd, hconcrete⟩

theorem violationsFor_of_held {file : ClassFile}
    (held : result.HoldsToContract scanner.rules tree roots name file) :
    result.violationsFor name = (List.replicate (tree.visits roots name)
      ((scanner.contract.broken (file.field? scanner.contract.fieldName)).map fun kind =>
        ⟨name, kind, scanner.contract.describe name kind⟩)).flatten := by
  rw [violationsFor_of_outcome (Verdicts.attributes_ofFacts _ _ _) houtcome,
    judged_of_held hindexed houtcome held]

theorem violationsFor_of_not_held
    (h : ¬ ∃ file, result.HoldsToContract scanner.rules tree roots name file) :
    result.violationsFor name = [] := by
  rw [violationsFor_of_outcome (Verdicts.attributes_ofFacts _ _ _) houtcome, List.flatten_eq_nil_iff]
  intro copy hc
  obtain ⟨hvisited, rfl⟩ := List.mem_replicate.1 hc
  obtain ⟨candidate, hm, rfl⟩ := FileTree.visits_pos_iff.1 (Nat.pos_of_ne_zero hvisited)
  exact judged_of_not_held hindexed houtcome hm h

theorem passed_iff_of_held : result.passed = true ↔
    ∀ name file, result.HoldsToContract scanner.rules tree roots name file →
      scanner.contract.broken (file.field? scanner.contract.fieldName) = [] := by
  rw [passed_iff_of_outcome houtcome]
  constructor
  · intro hall name file held
    obtain ⟨⟨root, hr, candidate, hfound, rfl⟩, _⟩ := (mem_manifest_iff houtcome name).1 held.listed
    have hnone := hall candidate (FileTree.mem_findings.2 ⟨root, hr, hfound⟩)
    rw [judged_of_held hindexed houtcome held] at hnone
    exact List.map_eq_nil_iff.1 hnone
  · intro hall candidate hm
    by_cases hn : ∃ file, result.HoldsToContract scanner.rules tree roots candidate.name file
    · obtain ⟨file, held⟩ := hn
      rw [judged_of_held hindexed houtcome held, hall candidate.name file held]
      rfl
    · exact judged_of_not_held hindexed houtcome hm hn

end Held

/-- The contract, from the class files to the violations. Nothing is held against a type that is not held to
it. What keeps the others from declaring a static final `long` field of the name is held against them, once
for each definition that was found, and the scan passes if they all declare one. -/
theorem violationsFor_of_scan {rules : EligibilityRules} {fieldName manifestName : String}
    {cache : ClassCache}
    (hindexed : (Classpath.ofRoots tree roots).map
      (fun indexed => (indexed.withPlatformTypes table).withLeafTypes leafTypes) = .ok classpath)
    (faithful : cache.Faithful classpath tree)
    (hscan : (((fresh rules (.version fieldName) manifestName).scan tree (classpath.facts tree)
      roots).run cache).1.1 = .ok result) :
    (∀ name, (¬ ∃ file, result.HoldsToContract rules tree roots name file) →
      result.violationsFor name = []) ∧
    (∀ name file, result.HoldsToContract rules tree roots name file → result.violationsFor name =
      (List.replicate (tree.visits roots name) ((file.versionFaults fieldName).map fun kind =>
        ⟨name, kind, (FieldContract.version fieldName).describe name kind⟩)).flatten) ∧
    (result.passed = true ↔ ∀ name file, result.HoldsToContract rules tree roots name file →
      file.DeclaresVersion fieldName) := by
  have built : classpath.Built := by
    obtain ⟨indexed, hroots, rfl⟩ := Except.map_eq_ok_iff.1 hindexed
    exact ((Classpath.Built.ofRoots hroots).withPlatformTypes table).withLeafTypes leafTypes
  rw [scan_gives (Classpath.facts_follows built).settled faithful] at hscan
  have houtcome := (ended_eq_ok_iff.1 hscan).2
  refine ⟨fun name => violationsFor_of_not_held hindexed houtcome, fun name file held => ?_, ?_⟩
  · rw [← FieldContract.broken_version]
    exact violationsFor_of_held hindexed houtcome held
  · simp only [← ClassFile.versionFaults_eq_nil_iff, ← FieldContract.broken_version]
    exact passed_iff_of_held hindexed houtcome

/-- A class that is found below two roots breaks the contract twice, and a class outside of the product not
at all. -/
theorem violationsFor_of_cyclicTree :
    let rules : EligibilityRules := ⟨["A", "B"], "java.io.Serializable", ["java.io.Externalizable"]⟩
    let roots := ["lib", "lib/A.class"]
    let classpath : Classpath := ⟨TypeIndex.empty.insertAll (Classpath.cyclicTree.findings roots), [], []⟩
    let missing : Violation := ⟨"A", .missingField, "No serialVersionUID field in class: A"⟩
    ∃ result,
      (((fresh rules (.version "serialVersionUID") "classes").scan Classpath.cyclicTree
        (classpath.facts Classpath.cyclicTree) roots).run .empty).1.1 = .ok result ∧
      result.violationsFor "A" = [missing, missing] ∧ result.violationsFor "B" = [] := by
  intro rules roots classpath missing
  have hscanned : (((fresh rules (.version "serialVersionUID") "classes").scan Classpath.cyclicTree
      (classpath.facts Classpath.cyclicTree) roots).run .empty).1.1.toOption.map (·.manifest) =
        some ["A", "B"] := by
    decide +kernel
  obtain ⟨result, hr, hm⟩ := Option.map_eq_some_iff.1 hscanned
  have hscan := Except.toOption_eq_some_iff.1 hr
  have hindexed : (Classpath.ofRoots Classpath.cyclicTree roots).map
      (fun indexed => (indexed.withPlatformTypes []).withLeafTypes []) = .ok classpath := by
    rw [Except.map_eq_ok_iff]
    exact ⟨classpath, Classpath.addRoots_eq_ok_iff.2 ⟨by decide +kernel, rfl⟩, rfl⟩
  obtain ⟨hfree, hbound, _⟩ :=
    violationsFor_of_scan hindexed (ClassCache.faithful_empty classpath Classpath.cyclicTree) hscan
  have hread : (Classpath.cyclicTree.firstClassFile? roots "A").map (fun file =>
      (file.access.bits, file.simpleName, file.versionFaults "serialVersionUID")) =
        some (0x21, "A", [.missingField]) := by
    decide +kernel
  obtain ⟨file, hf, he⟩ := Option.map_eq_some_iff.1 hread
  simp only [Prod.mk.injEq] at he
  obtain ⟨hbits, hname, hfaults⟩ := he
  have hconcrete : file.Concrete := by
    refine ⟨?_, ?_, ?_, ?_⟩
    · rw [hbits]
      decide
    · rw [hbits]
      decide
    · rw [hbits]
      exact fun henum => henum.1 (by decide)
    · rw [hname]
      decide
  have held : result.HoldsToContract rules Classpath.cyclicTree roots "A" file := by
    refine ⟨?_, ⟨"A", rfl, [], rfl⟩, hf, hconcrete⟩
    rw [hm]
    exact List.mem_cons_self
  have hother : ¬ ∃ file, result.HoldsToContract rules Classpath.cyclicTree roots "B" file := by
    rintro ⟨other, held⟩
    obtain ⟨lead, hlead, rest, hb⟩ := held.product
    cases hlead
    cases hb
  have hvisits : Classpath.cyclicTree.visits roots "A" = 2 := by
    decide +kernel
  refine ⟨result, hscan, ?_, hfree "B" hother⟩
  rw [hbound "A" file held, hvisits, hfaults]
  rfl

end Scanner

end SerialManifest

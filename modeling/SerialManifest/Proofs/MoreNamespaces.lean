import SerialManifest.Proofs.ContractObligations
import SerialManifest.Proofs.ScanTally
import SerialManifest.Proofs.SparedDefinitions

namespace SerialManifest

variable {σ : Type} {Good : σ → Prop} {facts : TypeFacts σ} {answers : TypeFacts Unit}

namespace EligibilityRules

def governing (rules : EligibilityRules) (namespaces : List String) : EligibilityRules :=
  { rules with namespaces }

variable {rules : EligibilityRules} {lead name : String} {others more permuted : List String}

theorem governs_append : (rules.governing (lead :: others ++ more)).governs name = true ↔
    (rules.governing (lead :: others)).governs name = true ∨
      ∃ beginning ∈ more, ∃ rest, name.toList = beginning.toList ++ rest := by
  simp only [governs_iff, governing, List.mem_append, or_and_right, exists_or]

theorem governs_of_product (h : rules.productNamespace?.any (Text.startsWith name) = true) :
    rules.governs name = true := by
  unfold productNamespace? at h
  cases hn : rules.namespaces with
  | nil => simp [hn] at h
  | cons first rest => simpa [governs, hn] using .inl (by simpa [hn] using h)

theorem classify_governing {namespaces namespaces' : List String} (hhead : namespaces'.head? = namespaces.head?)
    (hgoverns : (rules.governing namespaces').governs name = (rules.governing namespaces).governs name) :
    (rules.governing namespaces').classify facts name = (rules.governing namespaces).classify facts name := by
  have hcheckable : (rules.governing namespaces').isContractCheckable facts name =
      (rules.governing namespaces).isContractCheckable facts name := by
    simp only [isContractCheckable, productNamespace?, governing, hhead]
  unfold classify
  rw [hgoverns, hcheckable]
  rfl

theorem classify_of_perm (h : others.Perm permuted) (facts : TypeFacts σ) (name : String) :
    (rules.governing (lead :: permuted)).classify facts name =
      (rules.governing (lead :: others)).classify facts name := by
  refine classify_governing rfl ?_
  exact (h.symm.cons lead).any_eq

/-- Whoever is governed already is classified as before. -/
theorem classify_of_governs (h : (rules.governing (lead :: others)).governs name = true) :
    (rules.governing (lead :: others ++ more)).classify facts name =
      (rules.governing (lead :: others)).classify facts name :=
  classify_governing rfl ((governs_append.2 (.inl h)).trans h.symm)

/-- Whoever is governed only now is not held to the contract. -/
theorem ne_contractCheckable {eligibility : Eligibility}
    (hn : ¬ (rules.governing (lead :: others)).governs name = true)
    (h : outcomeOf ((rules.governing (lead :: others ++ more)).classify answers name) = .ok eligibility) :
    eligibility ≠ .contractCheckable := by
  intro he
  obtain ⟨_, hcheckable⟩ := (contractCheckable_iff h).1 he
  obtain ⟨_, _, _, hproduct⟩ := isContractCheckable_eq_true_iff.1 hcheckable
  exact hn (governs_of_product hproduct)

end EligibilityRules

namespace Scanner

variable {scanner : Scanner} {tree : FileTree} {roots : List String} {lead : String}
variable {others more permuted : List String} {result result' : ScanResult}

def governing (scanner : Scanner) (namespaces : List String) : Scanner :=
  { scanner with rules := scanner.rules.governing namespaces }

theorem examine_of_perm (h : others.Perm permuted) :
    (scanner.governing (lead :: permuted)).examine facts = (scanner.governing (lead :: others)).examine facts := by
  funext gathered candidate
  simp only [examine, governing, EligibilityRules.classify_of_perm h]

theorem examineAll_of_perm (h : others.Perm permuted) :
    (scanner.governing (lead :: permuted)).examineAll tree facts roots =
      (scanner.governing (lead :: others)).examineAll tree facts roots := by
  unfold examineAll examineRoot
  rw [examine_of_perm h]
  rfl

/-- Nothing but the order of the namespaces can tell the two scans from each other. -/
theorem scan_of_perm (h : others.Perm permuted) (memory : σ) :
    let ended := ((scanner.governing (lead :: others)).scan tree facts roots).run memory
    ((scanner.governing (lead :: permuted)).scan tree facts roots).run memory =
      ((ended.1.1, ended.1.2.governing (lead :: permuted)), ended.2) := by
  intro ended
  have hstate : ∀ namespaces, (scanner.governing namespaces).state = scanner.state := fun _ => rfl
  unfold ended scan
  rw [hstate, hstate]
  cases scanner.state with
  | idle =>
    let scanning : Scanner := { scanner with state := .scanning }
    have hscanning : (scanning.governing (lead :: permuted)).examineAll tree facts roots =
        (scanning.governing (lead :: others)).examineAll tree facts roots :=
      examineAll_of_perm h
    have hscanned : { scanner.governing (lead :: permuted) with state := .scanning }.examineAll tree facts roots =
        { scanner.governing (lead :: others) with state := .scanning }.examineAll tree facts roots :=
      hscanning
    rw [hscanned]
    rfl
  | _ => rfl

/-- What a scan judges a definition to be that it comes upon, and what one does that governs more. -/
inductive Widens (scanner : Scanner) (namespaces : List String) (name : String) : Judgement → Judgement → Prop where
  | governed (h : (scanner.rules.governing namespaces).governs name = true) (judgement : Judgement) :
    Widens scanner namespaces name judgement judgement
  | ungoverned (h : ¬ (scanner.rules.governing namespaces).governs name = true) {judgement : Judgement}
    (hne : judgement.eligibility ≠ .contractCheckable) (hv : judgement.violations = []) :
    Widens scanner namespaces name ⟨.excluded, []⟩ judgement

namespace Widens

variable {namespaces : List String} {name : String} {judgement judgement' : Judgement}
variable (widens : scanner.Widens namespaces name judgement judgement')
include widens

theorem violations : judgement'.violations = judgement.violations := by
  cases widens with
  | governed => rfl
  | ungoverned _ _ hv => exact hv

theorem checked_iff : judgement'.eligibility = .contractCheckable ↔ judgement.eligibility = .contractCheckable := by
  cases widens with
  | governed => rfl
  | ungoverned _ hne => exact ⟨fun h => absurd h hne, nofun⟩

theorem listed (h : judgement.eligibility.inManifest = true) : judgement'.eligibility.inManifest = true := by
  cases widens with
  | governed => exact h
  | ungoverned => cases h

theorem listed_or_ungoverned (h : judgement'.eligibility.inManifest = true) :
    judgement.eligibility.inManifest = true ∨ ¬ (scanner.rules.governing namespaces).governs name = true := by
  cases widens with
  | governed => exact .inl h
  | ungoverned hg => exact .inr hg

end Widens

def judgedBy (scanner : Scanner) (namespaces : List String) (answers : TypeFacts Unit) (name : String) :
    Judgement :=
  judged (.ofFacts (scanner.rules.governing namespaces) scanner.contract answers) name

section Outcome

variable
  (h : (scanner.governing (lead :: others)).outcome tree
    (.ofFacts (scanner.rules.governing (lead :: others)) scanner.contract answers) roots = .ok result)
  (h' : (scanner.governing (lead :: others ++ more)).outcome tree
    (.ofFacts (scanner.rules.governing (lead :: others ++ more)) scanner.contract answers) roots = .ok result')
include h'

theorem widens_of_found {candidate : Candidate} (hm : candidate ∈ tree.findings roots) :
    scanner.Widens (lead :: others) candidate.name
      (scanner.judgedBy (lead :: others) answers candidate.name)
      (scanner.judgedBy (lead :: others ++ more) answers candidate.name) := by
  by_cases hg : (scanner.rules.governing (lead :: others)).governs candidate.name = true
  · have hsame : scanner.judgedBy (lead :: others ++ more) answers candidate.name =
        scanner.judgedBy (lead :: others) answers candidate.name := by
      simp only [judgedBy, judged, Verdicts.judge, Verdicts.ofFacts, EligibilityRules.classify_of_governs hg]
    rw [hsame]
    exact .governed hg _
  · have hnone : scanner.judgedBy (lead :: others) answers candidate.name = ⟨.excluded, []⟩ :=
      judged_of_judge (Verdicts.judge_of_not_governs hg)
    have hj := judge_of_found h' hm
    have hne := EligibilityRules.ne_contractCheckable hg (Verdicts.of_judge hj)
    rw [hnone]
    exact .ungoverned hg hne (Verdicts.violations_eq_nil_of_judge hj hne)

include h

theorem violations_of_wider : result'.violations = result.violations := by
  rw [violations_of_outcome h, violations_of_outcome h']
  exact List.flatMap_congr fun candidate hm => (widens_of_found h' hm).violations

theorem checked_of_wider : result'.tally.checked = result.tally.checked := by
  rw [tally_of_outcome h, tally_of_outcome h']
  refine List.countP_congr fun candidate hm => ?_
  rw [decide_eq_true_iff, decide_eq_true_iff]
  exact (widens_of_found h' hm).checked_iff

theorem mem_of_wider {name : String} (hm : name ∈ result.manifest) : name ∈ result'.manifest := by
  rw [mem_manifest_of_outcome h] at hm
  rw [mem_manifest_of_outcome h']
  obtain ⟨candidate, hfound, rfl⟩ := List.mem_map.1 hm
  obtain ⟨hfound, hlisted⟩ := List.mem_filter.1 hfound
  exact List.mem_map_of_mem (List.mem_filter.2 ⟨hfound, (widens_of_found h' hfound).listed hlisted⟩)

theorem ungoverned_of_added {name : String} (hm : name ∈ result'.manifest) (hn : name ∉ result.manifest) :
    (∃ beginning ∈ more, ∃ rest, name.toList = beginning.toList ++ rest) ∧
      ¬ (scanner.rules.governing (lead :: others)).governs name = true := by
  rw [mem_manifest_of_outcome h'] at hm
  rw [mem_manifest_of_outcome h] at hn
  obtain ⟨candidate, hfound, rfl⟩ := List.mem_map.1 hm
  obtain ⟨hfound, hlisted⟩ := List.mem_filter.1 hfound
  have hungoverned := ((widens_of_found h' hfound).listed_or_ungoverned hlisted).resolve_left fun hold =>
    hn (List.mem_map_of_mem (List.mem_filter.2 ⟨hfound, hold⟩))
  have hclassified := Verdicts.of_judge (judge_of_found h' hfound)
  have hgoverned := (EligibilityRules.ne_excluded_iff hclassified).1 fun he => by
    rw [he] at hlisted
    cases hlisted
  exact ⟨(EligibilityRules.governs_append.1 hgoverned).resolve_left hungoverned, hungoverned⟩

end Outcome

/-- Namespaces that are added at the end only add entries to the manifest, and these begin with one of the new
namespaces and with none of the old ones; what is held against types stays the same, and so does the number of
those that are checked. To put the namespaces behind the first in another order changes nothing. -/
theorem scan_of_moreNamespaces (follows : facts.Follows Good answers) (scanner : Scanner) (tree : FileTree)
    (roots : List String) (lead : String) (others more : List String) :
    (∀ memory memory' result result', Good memory → Good memory' →
      (((scanner.governing (lead :: others)).scan tree facts roots).run memory).1.1 = .ok result →
      (((scanner.governing (lead :: others ++ more)).scan tree facts roots).run memory').1.1 = .ok result' →
        result'.violations = result.violations ∧ result'.tally.checked = result.tally.checked ∧
        (∀ name ∈ result.manifest, name ∈ result'.manifest) ∧
        ∀ name ∈ result'.manifest, name ∉ result.manifest →
          (∃ beginning ∈ more, ∃ rest, name.toList = beginning.toList ++ rest) ∧
            ¬ ∃ beginning ∈ lead :: others, ∃ rest, name.toList = beginning.toList ++ rest) ∧
    ∀ permuted, others.Perm permuted → ∀ memory,
      let ended := ((scanner.governing (lead :: others)).scan tree facts roots).run memory
      ((scanner.governing (lead :: permuted)).scan tree facts roots).run memory =
        ((ended.1.1, ended.1.2.governing (lead :: permuted)), ended.2) := by
  refine ⟨?_, fun permuted hperm memory => scan_of_perm hperm memory⟩
  intro memory memory' result result' good good' hscan hscan'
  rw [scan_gives follows.settled good] at hscan
  rw [scan_gives follows.settled good'] at hscan'
  have h := (ended_eq_ok_iff.1 hscan).2
  have h' := (ended_eq_ok_iff.1 hscan').2
  refine ⟨violations_of_wider h h', checked_of_wider h h', fun name => mem_of_wider h h', ?_⟩
  intro name hm hn
  have hadded := ungoverned_of_added h h' hm hn
  rw [EligibilityRules.governs_iff] at hadded
  exact hadded

/-- A class that is governed only by the second namespace is listed and not held to the contract. -/
theorem scan_of_secondNamespace :
    let scanner := Scanner.fresh ⟨[], "java.io.Serializable", []⟩ (.version "serialVersionUID") "classes"
    let classpath := (Classpath.empty.addRoot Classpath.cyclicTree "lib").1
    let scan (namespaces : List String) :=
      (((scanner.governing namespaces).scan Classpath.cyclicTree (classpath.facts Classpath.cyclicTree)
        ["lib"]).run .empty).1.1
    ∃ result result', scan ["A"] = .ok result ∧ scan ["A", "B"] = .ok result' ∧
      result.manifest = ["A"] ∧ result'.manifest = ["A", "B"] ∧
      result.violations.map (·.subject) = ["A"] ∧ result'.violations = result.violations ∧
      ¬ ∃ beginning ∈ ["A"], ∃ rest, "B".toList = beginning.toList ++ rest := by
  intro scanner classpath scan
  have hnarrow : (scan ["A"]).toOption.map (fun result => (result.manifest, result.violations.map (·.subject))) =
      some (["A"], ["A"]) := by
    decide +kernel
  have hwide : (scan ["A", "B"]).toOption.map (·.manifest) = some ["A", "B"] := by decide +kernel
  obtain ⟨result, hr, hresult⟩ := Option.map_eq_some_iff.1 hnarrow
  obtain ⟨result', hr', hmanifest'⟩ := Option.map_eq_some_iff.1 hwide
  obtain ⟨hmanifest, hsubjects⟩ := Prod.mk.inj hresult
  have hscan := Except.toOption_eq_some_iff.1 hr
  have hscan' := Except.toOption_eq_some_iff.1 hr'
  have built : classpath.Built := .addRoot .empty Classpath.cyclicTree "lib"
  have good := ClassCache.faithful_empty classpath Classpath.cyclicTree
  obtain ⟨hviolations, _, _, hadded⟩ := (scan_of_moreNamespaces (Classpath.facts_follows built) scanner
    Classpath.cyclicTree ["lib"] "A" [] ["B"]).1 _ _ result result' good good hscan hscan'
  refine ⟨result, result', hscan, hscan', hmanifest, hmanifest', hsubjects, hviolations, ?_⟩
  exact (hadded "B" (by simp [hmanifest']) (by simp [hmanifest])).2

end Scanner

end SerialManifest

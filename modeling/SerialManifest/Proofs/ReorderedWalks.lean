import Mathlib.Data.List.Perm.Basic
import SerialManifest.Proofs.ClasspathCache
import SerialManifest.Proofs.NameOrder
import SerialManifest.Proofs.SameContents
import SerialManifest.Proofs.ScanOutcome

namespace SerialManifest

namespace FileTree

variable {first second : FileTree}

theorem SameContents.walkArchive (same : first.SameContents second) (path : String) :
    first.walkArchive path = second.walkArchive path := by
  rw [FileTree.walkArchive, FileTree.walkArchive, same.openArchive]

theorem SameContents.definitionBytes (same : first.SameContents second) (origin : Origin) :
    first.definitionBytes origin = second.definitionBytes origin := by
  cases origin with
  | file path => rw [FileTree.definitionBytes, FileTree.definitionBytes, same.readBytes]
  | entry path name => rw [FileTree.definitionBytes, FileTree.definitionBytes, same.openArchive]

theorem SameContents.classFileAt? (same : first.SameContents second) (origin : Origin) :
    first.classFileAt? origin = second.classFileAt? origin := by
  rw [FileTree.classFileAt?, FileTree.classFileAt?, same.definitionBytes]

/-- A walk that goes through in one tree goes through in the other. -/
theorem SameContents.walkFrom_perm (same : first.SameContents second) {root path : String}
    {reached : Except FileFault Standing} {entered : List Entry}
    (h : (first.walkFrom root path reached entered).failure = none) :
    (second.walkFrom root path reached entered).failure = none ∧
      (first.walkFrom root path reached entered).found.Perm
        (second.walkFrom root path reached entered).found := by
  induction path, reached, entered using walkFrom.induct first root with
  | case1 path entered => simp [walkFrom, Walk.failed] at h
  | case2 path entered fault hf =>
    rw [walkFrom.eq_2 _ _ _ _ _ hf] at h
    simp [Walk.failed] at h
  | case3 path entered here hd hs =>
    rw [walkFrom_of_unspelt hd (by simpa using hs)] at h
    simp [Walk.failed] at h
  | case4 path entered here hd hs hc =>
    rw [walkFrom_of_cycle hd (by simpa using hs) hc] at h
    simp [Walk.failed] at h
  | case5 path entered here hd hs hc ih =>
    have hs : here.spelt = true := by simpa using hs
    have hd' : second.isDirectory here.place = true := same.shape.isDirectory here.place ▸ hd
    rw [walkFrom_of_directory hd hs hc] at h ⊢
    rw [walkFrom_of_directory hd' hs hc]
    have hall := Walk.failure_each_eq_none_iff.1 h
    -- the children come in another order, but the walk of each goes the same way in both trees
    have hchild : ∀ name ∈ first.children here.place,
        (second.walkChild root path here entered name).failure = none ∧
          (first.walkChild root path here entered name).found.Perm
            (second.walkChild root path here entered name).found := by
      intro name hm
      have hn := ih name (hall name hm)
      rw [same.shape.reachChild] at hn
      rw [walkChild, walkChild, same.shape.reachChild]
      exact hn
    have hperm := same.children_perm here.place
    have hall' : ∀ name ∈ second.children here.place,
        (second.walkChild root path here entered name).failure = none :=
      fun name hm => (hchild name (hperm.mem_iff.2 hm)).1
    refine ⟨Walk.failure_each_eq_none_iff.2 hall', ?_⟩
    rw [Walk.found_each hall, Walk.found_each hall']
    exact hperm.flatMap fun name hm => (hchild name hm).2
  | case6 path entered here hd ha =>
    have hd' : ¬ second.isDirectory here.place = true := same.shape.isDirectory here.place ▸ hd
    rw [walkFrom_of_archive hd ha] at h ⊢
    rw [walkFrom_of_archive hd' ha, ← same.walkArchive]
    exact ⟨h, .refl _⟩
  | case7 path entered here hd ha =>
    have hd' : ¬ second.isDirectory here.place = true := same.shape.isDirectory here.place ▸ hd
    rw [walkFrom_of_file hd ha] at h ⊢
    rw [walkFrom_of_file hd' ha]
    exact ⟨h, .refl _⟩

theorem SameContents.walk_perm (same : first.SameContents second) {root : String}
    (h : (first.walk root).failure = none) :
    (second.walk root).failure = none ∧ (first.walk root).found.Perm (second.walk root).found := by
  rw [walk, walk, ← same.shape.reach]
  exact same.walkFrom_perm h

theorem SameContents.findings_perm (same : first.SameContents second) {roots roots' : List String}
    (hroots : roots.Perm roots') (h : ∀ root ∈ roots, (first.walk root).failure = none) :
    (first.findings roots).Perm (second.findings roots') :=
  hroots.flatMap fun root hm => (same.walk_perm (h root hm)).2

end FileTree

theorem perm_foldl_insertName {α : Type} {name : α → String} {items items' : List α}
    (h : items.Perm items') :
    items.foldl (fun names item => insertName (name item) names) [] =
      items'.foldl (fun names item => insertName (name item) names) [] := by
  have hfirst : (items.foldl (fun names item => insertName (name item) names) []).Pairwise (· < ·) :=
    pairwise_foldl_insertName .nil
  have hsecond : (items'.foldl (fun names item => insertName (name item) names) []).Pairwise (· < ·) :=
    pairwise_foldl_insertName .nil
  have hperm : (items.foldl (fun names item => insertName (name item) names) []).Perm
      (items'.foldl (fun names item => insertName (name item) names) []) := by
    rw [List.perm_ext_iff_of_nodup (hfirst.imp ne_of_lt) (hsecond.imp ne_of_lt)]
    intro other
    rw [mem_foldl_insertName, mem_foldl_insertName]
    simp only [h.mem_iff]
  exact hperm.eq_of_pairwise (fun _ _ _ _ hlt hgt => absurd hgt (lt_asymm hlt)) hfirst hsecond

namespace Gathered

/-- Definitions taken down in another order come to the same, but for the order of the violations. -/
theorem noteAll_perm {candidates candidates' : List Candidate} (judge : String → Judgement) (count : Nat)
    (h : candidates.Perm candidates') :
    let gathered := (nothing.countRoots count).noteAll judge candidates
    let gathered' := (nothing.countRoots count).noteAll judge candidates'
    gathered.names = gathered'.names ∧ gathered.violations.Perm gathered'.violations ∧
      gathered.tally = gathered'.tally := by
  refine ⟨?_, ?_, ?_⟩
  · exact perm_foldl_insertName (h.filter _)
  · exact (h.flatMap_right _).append_left _
  · simp only [noteAll, h.countP_eq, h.length_eq]

end Gathered

namespace Scanner

variable {scanner : Scanner} {first second : FileTree} {verdicts : Verdicts} {roots roots' : List String}

/-- A scan through one tree carries over to the other and to the same roots in another order. -/
theorem outcome_perm (same : first.SameContents second) (hroots : roots.Perm roots') {result : ScanResult}
    (h : scanner.outcome first verdicts roots = .ok result) :
    ∃ result', scanner.outcome second verdicts roots' = .ok result' ∧
      result.manifestName = result'.manifestName ∧ result.manifest = result'.manifest ∧
      result.violations.Perm result'.violations ∧ result.tally = result'.tally := by
  obtain ⟨hwalks, hall, gathered, rfl, rfl⟩ := outcome_eq_ok_iff.1 h
  have hperm := same.findings_perm hroots hwalks
  have hwalks' : ∀ root ∈ roots', (second.walk root).failure = none :=
    fun root hm => (same.walk_perm (hwalks root (hroots.mem_iff.2 hm))).1
  have hall' : ∀ candidate ∈ second.findings roots', ∃ judgement,
      verdicts.judge candidate.name = .ok judgement :=
    fun candidate hm => hall candidate (hperm.mem_iff.2 hm)
  obtain ⟨hnames, hviolations, htally⟩ := Gathered.noteAll_perm (judged verdicts) roots.length hperm
  rw [hroots.length_eq] at hnames hviolations htally ⊢
  exact ⟨_, outcome_eq_ok_iff.2 ⟨hwalks', hall', _, rfl, rfl⟩, rfl, hnames, hviolations, htally⟩

end Scanner

end SerialManifest

import SerialManifest.FileTree.Write

namespace SerialManifest

def Node.target? : Node → Option String
  | .link target => some target
  | _ => none

namespace FileTree

theorem renew_of (place : Location) (node : Node) (old : Entry) :
    (Entry.of place node).renew old = if old.place = place then .of place node else old := by
  have hd : (Entry.of place node).depth = place.length := rfl
  have hp : (Entry.of place node).place = place := rfl
  rw [Entry.renew, hd, hp]
  by_cases h : old.place = place
  · rw [if_pos (Entry.isAt_iff.2 h), if_pos h]
  · rw [if_neg (mt Entry.isAt_iff.1 h), if_neg h]

theorem mem_entries_put {tree : FileTree} {place : Location} {node : Node} {entry : Entry} :
    entry ∈ (tree.put place node).entries ↔
      entry = .of place node ∨ entry ∈ tree.entries ∧ entry.place ≠ place := by
  unfold put
  split
  next h =>
    obtain ⟨stored, hstored⟩ := Option.isSome_iff_exists.1 h
    obtain ⟨hm, hp⟩ := entryAt?_eq_some_iff.1 hstored
    simp only [List.mem_map, renew_of]
    constructor
    · rintro ⟨old, ho, rfl⟩
      split
      next => exact .inl rfl
      next hne => exact .inr ⟨ho, hne⟩
    · rintro (rfl | ⟨ho, hne⟩)
      · exact ⟨stored, hm, if_pos hp⟩
      · exact ⟨entry, ho, if_neg hne⟩
  next h =>
    have hn : place ∉ tree.entries.map Entry.place :=
      entryAt?_eq_none_iff.1 (Option.not_isSome_iff_eq_none.1 h)
    have hall : ∀ other ∈ tree.entries, other.place ≠ place := by
      rintro other ho rfl
      exact hn (List.mem_map_of_mem ho)
    rw [List.mem_append, List.mem_singleton, or_comm]
    exact or_congr_right ⟨fun hm => ⟨hm, hall entry hm⟩, fun h => h.1⟩

theorem node?_put (tree : FileTree) (place other : Location) (node : Node) :
    (tree.put place node).node? other =
      if other = place ∧ place ≠ [] then some node else tree.node? other := by
  by_cases ho : other = []
  · subst ho
    rw [if_neg]
    · rfl
    · rintro ⟨rfl, hne⟩
      exact hne rfl
  · refine Option.ext fun found => ?_
    rw [node?_eq_some_iff ho]
    simp only [mem_entries_put]
    by_cases hp : other = place
    · subst hp
      rw [if_pos ⟨rfl, ho⟩, Option.some.injEq]
      constructor
      · rintro ⟨entry, rfl | ⟨_, hne⟩, he, hn⟩
        · exact hn
        · exact absurd he hne
      · rintro rfl
        exact ⟨.of other node, .inl rfl, rfl, rfl⟩
    · rw [if_neg fun h => hp h.1, node?_eq_some_iff ho]
      constructor
      · rintro ⟨entry, rfl | ⟨hm, _⟩, he, hn⟩
        · exact absurd he.symm hp
        · exact ⟨entry, hm, he, hn⟩
      · rintro ⟨entry, hm, he, hn⟩
        exact ⟨entry, .inr ⟨hm, fun h => hp (he.symm.trans h)⟩, he, hn⟩

theorem node?_put_self (tree : FileTree) {place : Location} (hp : place ≠ []) (node : Node) :
    (tree.put place node).node? place = some node := by
  rw [node?_put, if_pos ⟨rfl, hp⟩]

theorem node?_put_other (tree : FileTree) {place other : Location} (ho : other ≠ place) (node : Node) :
    (tree.put place node).node? other = tree.node? other := by
  rw [node?_put, if_neg fun h => ho h.1]

@[simp] theorem disk_put (tree : FileTree) (place : Location) (node : Node) :
    (tree.put place node).disk = tree.disk := by
  unfold put
  split <;> rfl

theorem not_link_of_entries {tree : FileTree} (h : ∀ entry ∈ tree.entries, entry.node.target? = none)
    (place : Location) (target : String) : tree.node? place ≠ some (.link target) := by
  intro hn
  have hne : place ≠ [] := by
    rintro rfl
    cases hn
  obtain ⟨entry, hm, _, hlink⟩ := (node?_eq_some_iff hne).1 hn
  have hnone := h entry hm
  rw [hlink] at hnone
  cases hnone

section Fill

variable {tree : FileTree} {place other : Location} {content : Content}

theorem node?_eq_of_mem {entry : Entry} (hm : entry ∈ tree.entries) (hp : entry.place ≠ []) :
    tree.node? entry.place = some entry.node :=
  (node?_eq_some_iff hp).2 ⟨entry, hm, rfl, rfl⟩

theorem sharedAt?_eq_of_mem {entry : Entry} (hm : entry ∈ tree.entries) :
    tree.sharedAt? entry.place = entry.shared := by
  rw [sharedAt?, entryAt?_eq_some_iff.2 ⟨hm, rfl⟩, Option.bind_some]

theorem exists_entry_of_sharedAt? {number : Nat} (h : tree.sharedAt? place = some number) :
    ∃ entry ∈ tree.entries, entry.place = place ∧ entry.shared = some number := by
  obtain ⟨entry, he, hs⟩ := Option.bind_eq_some_iff.1 h
  obtain ⟨hm, hp⟩ := entryAt?_eq_some_iff.1 he
  exact ⟨entry, hm, hp, hs⟩

theorem isNameOf_iff {second first : Entry} : second.isNameOf first = true ↔
    ∃ number content, first.shared = some number ∧ second.shared = some number ∧
      first.node = .file content ∧ second.node = .file content := by
  unfold Entry.isNameOf
  split
  next content number hn hs => simp [hn, hs]
  next hnot =>
    simp only [Bool.false_eq_true, false_iff]
    rintro ⟨number, content, hs, _, hn, _⟩
    exact hnot content number hn hs

/-- An entry is written into with another one if and only if both are names of one file. -/
theorem oneFile_iff {first second : Entry} (hf : first ∈ tree.entries) (hs : second ∈ tree.entries)
    (hp : first.place ≠ []) (ho : second.place ≠ []) : tree.OneFile first.place second.place ↔
      (second.isAt first.place first.depth || second.isNameOf first) = true := by
  rw [Bool.or_eq_true, first.depth_eq, Entry.isAt_iff, isNameOf_iff, OneFile, eq_comm (a := first.place),
    sharedAt?_eq_of_mem hf, sharedAt?_eq_of_mem hs, node?_eq_of_mem hf hp, node?_eq_of_mem hs ho]
  simp only [Option.some.injEq]

theorem OneFile.refl (tree : FileTree) (place : Location) : tree.OneFile place place :=
  .inl rfl

theorem eq_of_oneFile (hshared : ∀ entry ∈ tree.entries, entry.shared = none) (h : tree.OneFile place other) :
    place = other := by
  obtain he | ⟨number, _, hs, _⟩ := h
  · exact he
  · obtain ⟨entry, hm, _, hn⟩ := exists_entry_of_sharedAt? hs
    cases hn.symm.trans (hshared entry hm)

theorem OneFile.exists_file (h : tree.OneFile place other) (hne : place ≠ other) :
    ∃ content, tree.node? other = some (.file content) := by
  obtain he | ⟨_, content, _, _, _, ho⟩ := h
  · exact absurd he hne
  · exact ⟨content, ho⟩

theorem OneFile.ne_nil (h : tree.OneFile place other) (hne : place ≠ other) : other ≠ [] := by
  obtain ⟨content, ho⟩ := h.exists_file hne
  rintro rfl
  cases ho

theorem current_fill (tree : FileTree) (place : Location) (content : Content) :
    (tree.fill place content).current = tree.current := by
  unfold fill
  split
  · exact current_put _ _ _
  · rfl

@[simp] theorem disk_fill (tree : FileTree) (place : Location) (content : Content) :
    (tree.fill place content).disk = tree.disk := by
  unfold fill
  split
  · exact disk_put _ _ _
  · rfl

theorem mem_entries_fill {stored entry : Entry} (h : tree.entryAt? place = some stored) :
    entry ∈ (tree.fill place content).entries ↔ ∃ old ∈ tree.entries, stored.fill content old = entry := by
  unfold fill
  split
  next hn => cases h.symm.trans hn
  next other he =>
    cases h.symm.trans he
    exact List.mem_map

theorem fill_of_new (h : tree.entryAt? place = none) :
    tree.fill place content = tree.put place (.file content) := by
  unfold fill
  split
  · rfl
  next he => cases h.symm.trans he

theorem eq_of_oneFile_put {node : Node} (h : (tree.put place node).OneFile place other) : place = other := by
  obtain he | ⟨number, _, hs, _⟩ := h
  · exact he
  · have hentry : (tree.put place node).entryAt? place = some (.of place node) :=
      entryAt?_eq_some_iff.2 ⟨mem_entries_put.2 (.inl rfl), rfl⟩
    rw [sharedAt?, hentry] at hs
    cases hs

theorem place_fill (stored old : Entry) (content : Content) : (stored.fill content old).place = old.place := by
  unfold Entry.fill
  split <;> rfl

theorem node?_fill_of_oneFile (hp : place ≠ []) (h : tree.OneFile place other) :
    (tree.fill place content).node? other = some (.file content) := by
  have ho : other ≠ [] := by
    rcases h with rfl | ⟨_, _, _, _, _, hn⟩
    · exact hp
    · rintro rfl
      cases hn
  cases hstored : tree.entryAt? place with
  | none =>
    rcases h with rfl | ⟨number, _, hs, _⟩
    · rw [fill_of_new hstored, node?_put_self tree hp]
    · rw [sharedAt?, hstored] at hs
      cases hs
  | some stored =>
    obtain ⟨hm, rfl⟩ := entryAt?_eq_some_iff.1 hstored
    obtain ⟨old, hold, hat⟩ : ∃ old ∈ tree.entries, old.place = other := by
      rcases h with rfl | ⟨number, _, _, hs, _⟩
      · exact ⟨stored, hm, rfl⟩
      · obtain ⟨old, hold, hat, _⟩ := exists_entry_of_sharedAt? hs
        exact ⟨old, hold, hat⟩
    subst hat
    refine (node?_eq_some_iff ho).2 ⟨_, (mem_entries_fill hstored).2 ⟨old, hold, rfl⟩, place_fill _ _ _, ?_⟩
    rw [Entry.fill, if_pos ((oneFile_iff hm hold hp ho).1 h)]

theorem node?_fill_of_not (hp : place ≠ []) (h : ¬ tree.OneFile place other) :
    (tree.fill place content).node? other = tree.node? other := by
  cases hstored : tree.entryAt? place with
  | none =>
    rw [fill_of_new hstored, node?_put_other tree]
    rintro rfl
    exact h (.refl tree other)
  | some stored =>
    obtain ⟨hm, rfl⟩ := entryAt?_eq_some_iff.1 hstored
    by_cases ho : other = []
    · subst ho
      rfl
    · refine Option.ext fun node => ?_
      rw [node?_eq_some_iff ho, node?_eq_some_iff ho]
      have hkept : ∀ old ∈ tree.entries, old.place = other → stored.fill content old = old := by
        rintro old hold rfl
        rw [Entry.fill, if_neg (mt (oneFile_iff hm hold hp ho).2 h)]
      constructor
      · rintro ⟨_, he, hat, hn⟩
        obtain ⟨old, hold, rfl⟩ := (mem_entries_fill hstored).1 he
        rw [place_fill] at hat
        rw [hkept old hold hat] at hn
        exact ⟨old, hold, hat, hn⟩
      · rintro ⟨old, hold, hat, hn⟩
        exact ⟨old, (mem_entries_fill hstored).2 ⟨old, hold, hkept old hold hat⟩, hat, hn⟩

end Fill

section Unlink

theorem entryAt?_of_node? {tree : FileTree} {place : Location} (h : tree.node? place = none) :
    tree.entryAt? place = none := by
  cases place with
  | nil => cases h
  | cons name outer => simpa [node?] using h

theorem entries_put_of_new {tree : FileTree} {place : Location} (h : tree.entryAt? place = none) (node : Node) :
    (tree.put place node).entries = tree.entries ++ [.of place node] := by
  simp only [put, h, Option.isSome_none, Bool.false_eq_true, ↓reduceDIte]

theorem eq_of_entries {first second : FileTree} (he : first.entries = second.entries)
    (hc : first.current = second.current) (hd : first.disk = second.disk) : first = second := by
  cases first
  cases second
  cases he
  cases hc
  cases hd
  rfl

theorem put_put {tree : FileTree} {place : Location} (h : tree.entryAt? place = none) (first second : Node) :
    (tree.put place first).put place second = tree.put place second := by
  have hfirst : (tree.put place first).entryAt? place = some (.of place first) :=
    entryAt?_eq_some_iff.2 ⟨mem_entries_put.2 (.inl rfl), rfl⟩
  have hentries : ((tree.put place first).put place second).entries =
      (tree.put place first).entries.map (Entry.of place second).renew := by
    rw [put, dif_pos (by rw [hfirst]; rfl)]
  have hold : ∀ old ∈ tree.entries, (Entry.of place second).renew old = old := by
    intro old hm
    rw [renew_of, if_neg fun hp => entryAt?_eq_none_iff.1 h (List.mem_map.2 ⟨old, hm, hp⟩)]
  refine eq_of_entries ?_ (by simp only [current_put]) (by simp only [disk_put])
  rw [hentries, entries_put_of_new h, entries_put_of_new h, List.map_append, List.map_congr_left hold,
    List.map_id', List.map_singleton, renew_of, if_pos (show (Entry.of place first).place = place from rfl)]

/-- What was put where nothing stood can be taken away again. -/
theorem unlink_put {tree : FileTree} {place : Location} (h : tree.entryAt? place = none) (node : Node) :
    (tree.put place node).unlink place = tree := by
  have hnot : ∀ entry ∈ tree.entries, ¬ entry.isAt place place.length = true := by
    intro entry hm hat
    exact entryAt?_eq_none_iff.1 h (List.mem_map.2 ⟨entry, hm, Entry.isAt_iff.1 hat⟩)
  have hself : (Entry.of place node).isAt place place.length = true := Entry.isAt_iff.2 rfl
  refine eq_of_entries ?_ (current_put _ _ _) (disk_put _ _ _)
  change (tree.put place node).entries.filter (fun e => !e.isAt place place.length) = tree.entries
  rw [entries_put_of_new h, List.filter_append, List.filter_eq_self.2 fun entry hm => by simpa using hnot entry hm]
  simp [hself]

end Unlink

end FileTree

end SerialManifest

import SerialManifest.Proofs.DirectoryCreation
import SerialManifest.Proofs.WalkFindings

namespace SerialManifest

/-- What may become of a place: it stays as it is, a directory is created there, or, if it is one of the places
for outputs, a file is written. -/
inductive Gains (output : Prop) : Option Node → Option Node → Prop where
  | same (node : Option Node) : Gains output node node
  | created : Gains output none (some .directory)
  | written (h : output) (content : Content) : Gains output none (some (.file content))
  | rewritten (h : output) (content content' : Content) :
    Gains output (some (.file content)) (some (.file content'))

theorem Gains.trans {output : Prop} {first second third : Option Node} (h : Gains output first second)
    (again : Gains output second third) : Gains output first third := by
  cases h with
  | same => exact again
  | created =>
    cases again
    exact .created
  | written h content =>
    cases again with
    | same => exact .written h content
    | rewritten _ _ content' => exact .written h content'
  | rewritten h content =>
    cases again with
    | same => exact .rewritten h content _
    | rewritten _ _ content' => exact .rewritten h content content'

namespace Archive

variable {path : String}

theorem isArchiveName_of_append {lead text : List Char}
    (h : path.toList = lead ++ '/' :: text) : isArchiveName path = isArchiveName (String.ofList text) := by
  simp only [isArchiveName, suffixes, List.any_cons, List.any_nil, h, String.toList_ofList]
  rw [Text.endsInAnyCase_append (by decide), Text.endsInAnyCase_append (by decide)]

theorem isArchiveName_afterLast (path : String) :
    isArchiveName path = isArchiveName (String.ofList (Text.afterLast '/' path.toList)) := by
  rcases Text.eq_or_append_afterLast '/' path.toList with he | ⟨lead, he⟩
  · rw [← he, String.ofList_toList]
  · exact isArchiveName_of_append he

end Archive

theorem Gains.mono {output output' : Prop} {first second : Option Node} (h : Gains output first second)
    (ho : output → output') : Gains output' first second := by
  cases h with
  | same => exact .same first
  | created => exact .created
  | written h content => exact .written (ho h) content
  | rewritten h content content' => exact .rewritten (ho h) content content'

namespace Path

variable {path name : String} {lead : List Step}

def isInput (path : String) : Bool :=
  Candidate.isDefinitionName path || Archive.isArchiveName path

theorem isInput_of_append {lead text : List Char} (h : path.toList = lead ++ '/' :: text) :
    isInput path = isInput (String.ofList text) := by
  rw [isInput, isInput, Candidate.isDefinitionName_of_append h, Archive.isArchiveName_of_append h]

theorem isInput_afterLast (path : String) :
    isInput path = isInput (String.ofList (Text.afterLast '/' path.toList)) := by
  rcases Text.eq_or_append_afterLast '/' path.toList with he | ⟨lead, he⟩
  · rw [← he, String.ofList_toList]
  · exact isInput_of_append he

theorem length_of_isInput (h : isInput path = true) : 4 ≤ path.toList.length := by
  have hends : ∃ suffix ∈ [Candidate.suffix] ++ Archive.suffixes,
      Text.endsInAnyCase suffix path.toList = true := by
    rcases Bool.or_eq_true _ _ ▸ h with h | h
    · exact ⟨_, List.mem_cons_self, h⟩
    · obtain ⟨suffix, hs, h⟩ := List.any_eq_true.1 h
      exact ⟨suffix, List.mem_cons_of_mem _ hs, h⟩
  obtain ⟨suffix, hs, h⟩ := hends
  have hlong : ∀ suffix ∈ [Candidate.suffix] ++ Archive.suffixes, 4 ≤ suffix.length := by decide
  have hlen := (List.isSuffixOf_iff_suffix.1 h).length_le
  rw [List.length_map] at hlen
  exact (hlong suffix hs).trans hlen

theorem exists_split_eq (path : String) :
    ∃ init, Text.split '/' path.toList = init ++ [Text.afterLast '/' path.toList] := by
  have hne := Text.split_ne_nil '/' path.toList
  refine ⟨(Text.split '/' path.toList).dropLast, ?_⟩
  rw [Text.afterLast, List.getLastD_eq_getLast?, List.getLast?_eq_some_getLast hne]
  exact (List.dropLast_concat_getLast hne).symm

theorem exists_steps_eq (h : Text.afterLast '/' path.toList ≠ []) :
    ∃ lead, (Route.ofText path).steps = lead ++ [Step.ofSegment (Text.afterLast '/' path.toList)] := by
  obtain ⟨init, hsplit⟩ := exists_split_eq path
  refine ⟨(init.filter (· != [])).map Step.ofSegment, ?_⟩
  simp [Route.ofText, hsplit, h]

theorem ofSegment_of_steps (h : (Route.ofText path).steps = lead ++ [.child name]) :
    Step.ofSegment (Text.afterLast '/' path.toList) = .child name ∧ Text.afterLast '/' path.toList ≠ [] := by
  by_cases hl : Text.afterLast '/' path.toList = []
  · obtain ⟨init, hsplit⟩ := exists_split_eq path
    rw [hl] at hsplit
    have hlast := congrArg List.getLast? h
    by_cases hi : init = []
    · simp [Route.ofText, hsplit, hi] at h
    · have hpos := List.length_pos_iff.2 hi
      simp [Route.ofText, hsplit, hpos] at hlast
  · obtain ⟨lead', hs⟩ := exists_steps_eq hl
    rw [hs] at h
    exact ⟨(List.append_inj' h rfl).2 |> List.singleton_inj.1, hl⟩

theorem ofSegment_eq_child {segment : List Char} (h : Step.ofSegment segment = .child name) :
    segment ≠ ['.'] ∧ segment ≠ ['.', '.'] ∧ segment = name.toList := by
  unfold Step.ofSegment at h
  split at h
  next => cases h
  next hdot =>
    split at h
    next => cases h
    next hdots =>
      cases h
      exact ⟨hdot, hdots, String.toList_ofList.symm⟩

theorem properName_of_steps (hr : FileTree.route path = .ok (Route.ofText path))
    (h : (Route.ofText path).steps = lead ++ [.child name]) :
    ProperName name ∧ isInput name = isInput path := by
  obtain ⟨hsegment, hne⟩ := ofSegment_of_steps h
  obtain ⟨hdot, hdots, hname⟩ := ofSegment_eq_child hsegment
  obtain ⟨hnul, _, _, _⟩ := FileTree.route_eq_ok_iff.1 hr
  have hmem : ∀ c ∈ name.toList, c ∈ path.toList := by
    intro c hc
    rw [← hname] at hc
    rcases Text.eq_or_append_afterLast '/' path.toList with he | ⟨lead, he⟩
    · exact he ▸ hc
    · rw [he]
      exact List.mem_append_right lead (List.mem_cons_of_mem '/' hc)
  refine ⟨⟨?_, ?_, ?_, ?_, fun hm => hnul (hmem _ hm)⟩, ?_⟩
  · rintro rfl
    exact hne hname
  · rintro rfl
    exact hdot hname
  · rintro rfl
    exact hdots hname
  · obtain ⟨init, hsplit⟩ := exists_split_eq path
    rw [← hname]
    exact Text.not_mem_of_mem_split (hsplit ▸ List.mem_append_right init List.mem_cons_self)
  · rw [isInput_afterLast path, hname, String.ofList_toList]

theorem exists_steps_of_isInput (h : isInput path = true) : ∃ lead,
    (Route.ofText path).steps = lead ++ [.child (String.ofList (Text.afterLast '/' path.toList))] := by
  rw [isInput_afterLast] at h
  have hlong := length_of_isInput h
  rw [String.toList_ofList] at hlong
  have hne : ∀ short : List Char, short.length < 4 → Text.afterLast '/' path.toList ≠ short := by
    rintro short hshort he
    rw [he] at hlong
    omega
  obtain ⟨lead, hs⟩ := exists_steps_eq (hne [] (by decide))
  rw [Step.ofSegment, if_neg (hne _ (by decide)), if_neg (hne _ (by decide))] at hs
  exact ⟨lead, hs⟩

end Path

namespace FileTree

/-- The later tree is the earlier one with new directories in it and with files at some of the places for
outputs. -/
structure Supplemented (outputs : Location → Prop) (before after : FileTree) : Prop where
  current : after.current = before.current
  gains : ∀ place, Gains (outputs place) (before.node? place) (after.node? place)
  placesNew : PlacesNew before after

/-- The last name of a path stands at a place, whatever is there. -/
def Names (tree : FileTree) (path : String) (place : Location) : Prop :=
  ∃ here name, tree.slot path = .ok ⟨here, some name, false⟩ ∧ place = name :: here.place

/-- The places for outputs are called neither as definitions nor as archives are, and no link leads to one of
them. -/
structure Apart (tree : FileTree) (outputs : Location → Prop) : Prop where
  named : ∀ place, outputs place → ∃ name outer, place = name :: outer ∧ Path.ProperName name ∧
    Path.isInput name = false
  unlinked : ∀ outer name target, tree.node? (name :: outer) = some (.link target) →
    ∀ there, tree.onward (.fresh outer) [.child name] = .ok there → ¬ outputs there.place

variable {outputs : Location → Prop} {tree before after : FileTree} {path : String} {here there : Standing}
variable {place : Location}

namespace Supplemented

theorem of_sameContents (same : before.SameContents after) : Supplemented outputs before after where
  current := same.current.symm
  gains place := same.nodes place ▸ .same _
  placesNew place hn hs := by
    rw [← same.nodes, hn] at hs
    cases hs

theorem of_grown {origin : Standing} {steps : List Step} (grown : Grown origin steps before after) :
    Supplemented outputs before after where
  current := grown.current
  gains place := by
    rcases grown.nodes place with he | ⟨hn, hd, _⟩
    · exact he ▸ .same _
    · rw [hn, hd]
      exact .created
  placesNew := grown.placesNew

theorem put {name : String} {outer : Location} {content : Content} (h : outputs (name :: outer))
    (hd : tree.isDirectory outer = true) (hl : ¬ longestName < name.utf8ByteSize)
    (hn : ∀ node, tree.node? (name :: outer) = some node → ∃ content, node = .file content) :
    Supplemented outputs tree (tree.put (name :: outer) (.file content)) where
  current := current_put _ _ _
  gains place := by
    by_cases hp : place = name :: outer
    · subst hp
      rw [node?_put_self tree (List.cons_ne_nil name outer)]
      cases hnode : tree.node? (name :: outer) with
      | none => exact .written h content
      | some node =>
        obtain ⟨stored, rfl⟩ := hn node hnode
        exact .rewritten h stored content
    · exact node?_put_other tree hp _ ▸ .same _
  placesNew := .put hd hl _

theorem fill {name : String} {outer : Location} {content : Content}
    (h : ∀ other, tree.OneFile (name :: outer) other → outputs other) (hd : tree.isDirectory outer = true)
    (hl : ¬ longestName < name.utf8ByteSize)
    (hn : ∀ node, tree.node? (name :: outer) = some node → ∃ content, node = .file content) :
    Supplemented outputs tree (tree.fill (name :: outer) content) := by
  have hp : name :: outer ≠ [] := List.cons_ne_nil name outer
  cases hstands : tree.node? (name :: outer) with
  | none =>
    have hnew := entryAt?_of_node? hstands
    rw [fill_of_new hnew]
    exact .put (h _ (.refl tree _)) hd hl hn
  | some node =>
    have hfile : ∀ other, tree.OneFile (name :: outer) other → ∃ stored, tree.node? other = some (.file stored) := by
      rintro other (rfl | ⟨_, stored, _, _, _, ho⟩)
      · obtain ⟨stored, he⟩ := hn node hstands
        exact ⟨stored, he ▸ hstands⟩
      · exact ⟨stored, ho⟩
    refine ⟨current_fill _ _ _, fun other => ?_, fun other hb ha => ?_⟩
    · by_cases hone : tree.OneFile (name :: outer) other
      · obtain ⟨stored, ho⟩ := hfile other hone
        rw [node?_fill_of_oneFile hp hone, ho]
        exact .rewritten (h other hone) stored content
      · exact node?_fill_of_not hp hone ▸ .same _
    · by_cases hone : tree.OneFile (name :: outer) other
      · obtain ⟨stored, ho⟩ := hfile other hone
        cases hb.symm.trans ho
      · rw [node?_fill_of_not hp hone, hb] at ha
        cases ha

variable (supplemented : Supplemented outputs before after)
include supplemented

theorem keeps : Keeps before after := by
  intro place node hn
  have gains := supplemented.gains place
  rw [hn] at gains
  generalize after.node? place = later at gains
  cases gains with
  | same => exact .inl rfl
  | rewritten _ content content' => exact .inr ⟨content, content', rfl, rfl⟩

theorem trans {last : FileTree} (again : Supplemented outputs after last) :
    Supplemented outputs before last where
  current := again.current.trans supplemented.current
  gains place := (supplemented.gains place).trans (again.gains place)
  placesNew := supplemented.placesNew.trans again.placesNew fun _ => again.keeps.isDirectory

theorem mono {outputs' : Location → Prop} (h : ∀ place, outputs place → outputs' place) :
    Supplemented outputs' before after :=
  ⟨supplemented.current, fun place => (supplemented.gains place).mono (h place), supplemented.placesNew⟩

theorem node?_eq {node : Node} (hn : before.node? place = some node) (ho : ¬ outputs place) :
    after.node? place = some node := by
  have gains := supplemented.gains place
  rw [hn] at gains
  generalize after.node? place = later at gains ⊢
  cases gains with
  | same => rfl
  | rewritten h => exact absurd h ho

theorem not_link (hnot : ∀ target, before.node? place ≠ some (.link target)) (target : String) :
    after.node? place ≠ some (.link target) := by
  intro hn
  have gains := supplemented.gains place
  rw [hn] at gains
  generalize hb : before.node? place = stood at gains
  cases gains with
  | same => exact hnot target hb

theorem file (h : ∃ content, before.node? place = some (.file content)) :
    ∃ content, after.node? place = some (.file content) := by
  obtain ⟨content, hn⟩ := h
  rcases supplemented.keeps place _ hn with hn | ⟨_, content', _, hn⟩
  · exact ⟨content, hn⟩
  · exact ⟨content', hn⟩

/-- What is new is a directory or an output. -/
theorem eq_directory_or_output {node : Node} (hb : before.node? place = none)
    (ha : after.node? place = some node) :
    node = .directory ∨ outputs place ∧ ∃ content, node = .file content := by
  have gains := supplemented.gains place
  rw [hb, ha] at gains
  cases gains with
  | created => exact .inl rfl
  | written h content => exact .inr ⟨h, content, rfl⟩

theorem not_isDirectory {node : Node} (hn : before.node? place = some node)
    (hd : ¬ before.isDirectory place = true) : ¬ after.isDirectory place = true := by
  intro ha
  have gains := supplemented.gains place
  rw [hn, beq_iff_eq.1 ha] at gains
  generalize hlater : some Node.directory = later at gains
  cases gains with
  | same => exact hd (beq_iff_eq.2 (hn.trans hlater.symm))
  | rewritten => cases hlater

theorem reach (h : before.reach path = .ok here) : after.reach path = .ok here := by
  obtain ⟨route, hroute, ho⟩ := Except.bind_eq_ok_iff.1 h
  rw [FileTree.reach, hroute]
  change after.onward (after.start route) route.steps = .ok here
  rw [start_of_current supplemented.current]
  exact supplemented.keeps.onward ho

theorem reachChild {name : String} (h : before.reachChild here path name = .ok there) :
    after.reachChild here path name = .ok there := by
  unfold FileTree.reachChild at h ⊢
  split at h
  next => cases h
  next hl =>
    rw [if_neg hl]
    exact supplemented.keeps.onward h

end Supplemented

section Links

variable {steps : List Step}

theorem advance_of_more {jump jump' : Standing → List Step → Except FileFault Standing}
    (hj : ∀ here here' steps there, here.place = here'.place → jump here steps = .ok there →
      ∃ there', jump' here' steps = .ok there' ∧ there'.place = there.place)
    {here' : Standing} (hp : here.place = here'.place) (h : tree.advance .refuse jump here steps = .ok there) :
    ∃ there', tree.advance .refuse jump' here' steps = .ok there' ∧ there'.place = there.place := by
  induction steps generalizing here here' with
  | nil =>
    cases h
    exact ⟨here', rfl, hp.symm⟩
  | cons step rest ih =>
    cases step with
    | child name =>
      obtain ⟨hd, hl, hcases⟩ := advance_child_eq_ok_iff.1 h
      simp only [advance_child_eq_ok_iff, ← hp, hd, hl, not_false_eq_true, true_and]
      rcases hcases with ⟨target, hlink, hjump⟩ | ⟨node, hnode, hnot, hrest⟩
      · obtain ⟨there', hj', hp'⟩ := hj _ (here'.link name (Route.ofText target)) _ _
          (by simp only [Standing.link, hp]) hjump
        exact ⟨there', .inl ⟨target, hlink, hj'⟩, hp'⟩
      · have hchild : (here.child name).place = (here'.child name).place := congrArg (name :: ·) hp
        obtain ⟨there', hr', hp'⟩ := ih hchild hrest
        exact ⟨there', .inr ⟨node, hnode, hnot, hr'⟩, hp'⟩
    | _ =>
      obtain ⟨hd, hrest⟩ := (advance_nameless_eq_ok_iff (by simp)).1 h
      simp only [advance_nameless_eq_ok_iff, ← hp, hd, ne_eq, reduceCtorEq, not_false_eq_true, implies_true,
        true_and]
      exact ih (by simp only [Standing.after, hp]) hrest

theorem follow_of_more {links links' : Nat} (hl : links ≤ links') {here' : Standing}
    (hp : here.place = here'.place) (h : tree.follow .refuse links here steps = .ok there) :
    ∃ there', tree.follow .refuse links' here' steps = .ok there' ∧ there'.place = there.place := by
  induction links generalizing links' here here' steps there with
  | zero =>
    cases links' <;> exact advance_of_more (fun _ _ _ _ _ hn => by cases hn) hp h
  | succ links ih =>
    cases links' with
    | zero => omega
    | succ links' =>
      refine advance_of_more (fun _ _ _ _ hp hn => ?_) hp h
      exact ih (Nat.le_of_succ_le_succ hl) hp hn

theorem links_le_of_advance {jump : Standing → List Step → Except FileFault Standing}
    (hj : ∀ here steps there, jump here steps = .ok there → there.links ≤ here.links)
    (h : tree.advance .refuse jump here steps = .ok there) : there.links ≤ here.links := by
  induction steps generalizing here with
  | nil =>
    cases h
    exact le_rfl
  | cons step rest ih =>
    cases step with
    | child name =>
      obtain ⟨_, _, ⟨_, _, hjump⟩ | ⟨_, _, _, hrest⟩⟩ := advance_child_eq_ok_iff.1 h
      · exact (hj _ _ _ hjump).trans (Nat.sub_le _ _)
      · have hle : there.links ≤ (here.child name).links := ih hrest
        exact hle
    | up =>
      have hle : there.links ≤ (here.after .up).links := ih ((advance_nameless_eq_ok_iff (by simp)).1 h).2
      exact hle
    | _ => exact ih ((advance_nameless_eq_ok_iff (by simp)).1 h).2

theorem links_le_of_onward (h : tree.onward here steps = .ok there) : there.links ≤ here.links := by
  have hfollow : ∀ links here steps there, tree.follow .refuse links here steps = .ok there →
      there.links ≤ here.links := by
    intro links
    induction links with
    | zero => exact fun _ _ _ h => links_le_of_advance (fun _ _ _ hn => by cases hn) h
    | succ links ih => exact fun _ _ _ h => links_le_of_advance ih h
  exact hfollow _ _ _ _ h

/-- The more links may be followed, the more paths lead somewhere. -/
theorem onward_fresh (hl : here.links ≤ linkLimit) (h : tree.onward here steps = .ok there) :
    ∃ there', tree.onward (.fresh here.place) steps = .ok there' ∧ there'.place = there.place := by
  have hp : here.place = (Standing.fresh here.place).place := rfl
  exact follow_of_more hl hp h

end Links

/-- No path of a definition or an archive leads to an output. -/
theorem Apart.not_output (apart : tree.Apart outputs) (h : tree.reach path = .ok here)
    (hi : Path.isInput path = true) : ¬ outputs here.place := by
  intro ho
  obtain ⟨out, outer, hplace, _, hout⟩ := apart.named _ ho
  obtain ⟨route, hroute, honward⟩ := Except.bind_eq_ok_iff.1 h
  cases route_eq_ok hroute
  obtain ⟨lead, hsteps⟩ := Path.exists_steps_of_isInput hi
  rw [Path.isInput_afterLast] at hi
  generalize String.ofList (Text.afterLast '/' path.toList) = name at hsteps hi
  rw [hsteps, onward_append] at honward
  obtain ⟨middle, hmiddle, hlast⟩ := Except.bind_eq_ok_iff.1 honward
  obtain ⟨jump, hjump⟩ := onward_eq_advance tree middle [.child name]
  obtain ⟨_, _, ⟨target, hlink, _⟩ | ⟨_, _, _, hrest⟩⟩ := advance_child_eq_ok_iff.1 (hjump ▸ hlast)
  · -- the last name stands for a link, and no link leads to an output
    have hlinks : middle.links ≤ linkLimit := links_le_of_onward hmiddle
    obtain ⟨there, hfresh, hthere⟩ := onward_fresh hlinks hlast
    exact apart.unlinked _ _ _ hlink there hfresh (hthere ▸ ho)
  · -- the last name is what the output is called
    cases hrest
    rw [(List.cons.inj hplace).1, hout] at hi
    cases hi

/-- Where no link stands a path leads to what is called by its last segment. -/
theorem exists_outer_of_resolve (linkless : ∀ other target, tree.node? other ≠ some (.link target))
    (h : tree.resolve path = .ok place) (hi : Path.isInput path = true) :
    ∃ outer, place = String.ofList (Text.afterLast '/' path.toList) :: outer := by
  obtain ⟨here, hreach, rfl⟩ := Except.map_eq_ok_iff.1 h
  obtain ⟨route, hroute, honward⟩ := Except.bind_eq_ok_iff.1 hreach
  cases route_eq_ok hroute
  obtain ⟨lead, hsteps⟩ := Path.exists_steps_of_isInput hi
  rw [hsteps, onward_append] at honward
  obtain ⟨middle, _, hlast⟩ := Except.bind_eq_ok_iff.1 honward
  obtain ⟨jump, hjump⟩ := onward_eq_advance tree middle [.child _]
  obtain ⟨_, _, ⟨target, hlink, _⟩ | ⟨_, _, _, hrest⟩⟩ := advance_child_eq_ok_iff.1 (hjump ▸ hlast)
  · exact absurd hlink (linkless _ target)
  · cases hrest
    exact ⟨_, rfl⟩

namespace Supplemented

variable (supplemented : Supplemented outputs before after) (apart : before.Apart outputs)
variable (hi : Path.isInput path = true)
include supplemented apart hi

theorem contentAt {content : Content} (hr : before.resolve path = .ok place)
    (hc : before.contentAt place = .ok content) :
    after.resolve path = .ok place ∧ after.contentAt place = .ok content := by
  obtain ⟨here, hreach, rfl⟩ := Except.map_eq_ok_iff.1 hr
  refine ⟨place_of_reach (supplemented.reach hreach), ?_⟩
  unfold FileTree.contentAt at hc ⊢
  split at hc
  next stored hn =>
    rw [supplemented.node?_eq hn (apart.not_output hreach hi)]
    exact hc
  next => cases hc
  next => cases hc

theorem leadsToFile {content : Content} (h : before.LeadsToFile path content) : after.LeadsToFile path content := by
  obtain ⟨place, hr, hc⟩ := h
  exact ⟨place, supplemented.contentAt apart hi hr hc⟩

theorem openArchive {archive : Archive} (h : before.openArchive path = .ok archive) :
    after.openArchive path = .ok archive := by
  unfold FileTree.openArchive at h ⊢
  split at h
  next => cases h
  next place hr =>
    split at h
    next stored hc =>
      obtain ⟨hr', hc'⟩ := supplemented.contentAt apart hi hr hc
      simp only [hr', hc']
      exact h
    next => cases h

end Supplemented

end FileTree

end SerialManifest

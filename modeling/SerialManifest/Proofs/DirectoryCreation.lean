import SerialManifest.Proofs.PathAncestors
import SerialManifest.Proofs.ReplacedFile
import SerialManifest.Proofs.WalkEquations

namespace SerialManifest

namespace FileTree

/-- A way leads through the places that its first steps lead to. -/
def LeadsThrough (tree : FileTree) (origin : Standing) (steps : List Step) (place : Location) : Prop :=
  ∃ lead there, lead <+: steps ∧ tree.onward origin lead = .ok there ∧ there.place = place

/-- Every place keeps what stands there, but files may hold something else. -/
def Keeps (before after : FileTree) : Prop :=
  ∀ place node, before.node? place = some node → after.node? place = some node ∨
    ∃ content content', node = .file content ∧ after.node? place = some (.file content')

/-- What a tree has more than an earlier one lies in directories and has names that are not too long. -/
def PlacesNew (before after : FileTree) : Prop :=
  ∀ place, before.node? place = none → (after.node? place).isSome = true →
    after.isDirectory place.tail = true ∧ ∀ name ∈ place.head?, ¬ longestName < name.utf8ByteSize

theorem PlacesNew.refl (tree : FileTree) : PlacesNew tree tree := by
  intro place hn hs
  rw [hn] at hs
  cases hs

theorem PlacesNew.trans {before middle after : FileTree} (first : PlacesNew before middle)
    (second : PlacesNew middle after)
    (hd : ∀ place, middle.isDirectory place = true → after.isDirectory place = true) :
    PlacesNew before after := by
  intro place hn hs
  cases hm : middle.node? place with
  | none => exact second place hm hs
  | some node =>
    obtain ⟨htail, hname⟩ := first place hn (by rw [hm]; rfl)
    exact ⟨hd _ htail, hname⟩

theorem PlacesNew.put {tree : FileTree} {name : String} {outer : Location}
    (hd : tree.isDirectory outer = true) (hl : ¬ longestName < name.utf8ByteSize) (node : Node) :
    PlacesNew tree (tree.put (name :: outer) node) := by
  intro place hn hs
  by_cases hp : place = name :: outer
  · subst hp
    refine ⟨?_, fun first hf => Option.some.inj hf ▸ hl⟩
    rw [List.tail_cons, isDirectory, node?_put_other tree (List.cons_ne_self name outer).symm]
    exact hd
  · rw [node?_put_other tree hp, hn] at hs
    cases hs

/-- What a tree has more than an earlier one are directories that a way leads through. -/
structure Grown (origin : Standing) (steps : List Step) (before after : FileTree) : Prop where
  current : after.current = before.current
  nodes : ∀ place, after.node? place = before.node? place ∨
    before.node? place = none ∧ after.node? place = some .directory ∧ after.LeadsThrough origin steps place
  placesNew : PlacesNew before after

variable {tree before after : FileTree} {origin here there : Standing} {steps lead : List Step}
variable {name : String} {path : String}

namespace Keeps

theorem isDirectory (keeps : Keeps before after) {place : Location} (h : before.isDirectory place = true) :
    after.isDirectory place = true := by
  rcases keeps place .directory (beq_iff_eq.1 h) with hn | ⟨_, _, he, _⟩
  · exact beq_iff_eq.2 hn
  · cases he

theorem link (keeps : Keeps before after) {place : Location} {target : String}
    (h : before.node? place = some (.link target)) : after.node? place = some (.link target) := by
  rcases keeps place _ h with hn | ⟨_, _, he, _⟩
  · exact hn
  · cases he

theorem unlinked (keeps : Keeps before after) {place : Location} {node : Node}
    (h : before.node? place = some node) (hnot : ∀ target, node ≠ .link target) :
    ∃ node', after.node? place = some node' ∧ ∀ target, node' ≠ .link target := by
  rcases keeps place node h with hn | ⟨_, content', _, hn⟩
  · exact ⟨node, hn, hnot⟩
  · exact ⟨.file content', hn, nofun⟩

theorem advance (keeps : Keeps before after) {jump jump' : Standing → List Step → Except FileFault Standing}
    (hj : ∀ here steps there, jump here steps = .ok there → jump' here steps = .ok there)
    {way : List Step} (h : before.advance .refuse jump here way = .ok there) :
    after.advance .refuse jump' here way = .ok there := by
  induction way generalizing here with
  | nil => exact h
  | cons step rest ih =>
    cases step with
    | child name =>
      obtain ⟨hd, hl, hcases⟩ := advance_child_eq_ok_iff.1 h
      refine advance_child_eq_ok_iff.2 ⟨keeps.isDirectory hd, hl, ?_⟩
      rcases hcases with ⟨target, hlink, hjump⟩ | ⟨node, hnode, hnot, hrest⟩
      · exact .inl ⟨target, keeps.link hlink, hj _ _ _ hjump⟩
      · obtain ⟨node', hnode', hnot'⟩ := keeps.unlinked hnode hnot
        exact .inr ⟨node', hnode', hnot', ih hrest⟩
    | _ =>
      obtain ⟨hd, hrest⟩ := (advance_nameless_eq_ok_iff (by simp)).1 h
      exact (advance_nameless_eq_ok_iff (by simp)).2 ⟨keeps.isDirectory hd, ih hrest⟩

theorem onward (keeps : Keeps before after) {way : List Step} (h : before.onward here way = .ok there) :
    after.onward here way = .ok there := by
  unfold FileTree.onward at h ⊢
  generalize here.links = links at h ⊢
  induction links generalizing here way there with
  | zero => exact keeps.advance (fun _ _ _ hn => by cases hn) h
  | succ links ih => exact keeps.advance (fun _ _ _ hn => ih hn) h

end Keeps

namespace Grown

theorem refl (origin : Standing) (steps : List Step) (tree : FileTree) : Grown origin steps tree tree :=
  ⟨rfl, fun _ => .inl rfl, .refl tree⟩

theorem node? (grown : Grown origin steps before after) {place : Location} {node : Node}
    (h : before.node? place = some node) : after.node? place = some node := by
  rcases grown.nodes place with he | ⟨hn, _⟩
  · rw [he, h]
  · rw [hn] at h
    cases h

theorem keeps (grown : Grown origin steps before after) : Keeps before after :=
  fun _ _ h => .inl (grown.node? h)

theorem isDirectory (grown : Grown origin steps before after) {place : Location}
    (h : before.isDirectory place = true) : after.isDirectory place = true :=
  grown.keeps.isDirectory h

theorem onward (grown : Grown origin steps before after) {way : List Step}
    (h : before.onward here way = .ok there) : after.onward here way = .ok there :=
  grown.keeps.onward h

theorem leadsThrough (grown : Grown origin steps before after) {from' : Standing} {way : List Step}
    {place : Location} (h : before.LeadsThrough from' way place) : after.LeadsThrough from' way place := by
  obtain ⟨lead, there, hl, ho, hp⟩ := h
  exact ⟨lead, there, hl, grown.onward ho, hp⟩

theorem mono (grown : Grown origin steps before after) {more : List Step} (h : steps <+: more) :
    Grown origin more before after := by
  refine ⟨grown.current, fun place => (grown.nodes place).imp_right ?_, grown.placesNew⟩
  rintro ⟨hn, hd, lead, there, hl, hrest⟩
  exact ⟨hn, hd, lead, there, hl.trans h, hrest⟩

theorem trans {later : FileTree} (grown : Grown origin steps before after)
    (again : Grown origin steps after later) : Grown origin steps before later := by
  refine ⟨again.current.trans grown.current, fun place => ?_,
    grown.placesNew.trans again.placesNew fun _ => again.isDirectory⟩
  rcases grown.nodes place with he | ⟨hn, hd, ht⟩
  · rw [← he]
    exact again.nodes place
  · exact .inr ⟨hn, again.node? hd, again.leadsThrough ht⟩

/-- What is created on a way is created on any longer way that begins with steps to where it starts. -/
theorem prepend (grown : Grown here steps before after) (h : before.onward origin lead = .ok here) :
    Grown origin (lead ++ steps) before after := by
  refine ⟨grown.current, fun place => (grown.nodes place).imp_right ?_, grown.placesNew⟩
  rintro ⟨hn, hd, way, there, hw, ho, hp⟩
  refine ⟨hn, hd, lead ++ way, there, (List.prefix_append_right_inj lead).2 hw, ?_, hp⟩
  rw [onward_append, grown.onward h]
  exact ho

end Grown

theorem onward_nil (tree : FileTree) (here : Standing) : tree.onward here [] = .ok here := by
  obtain ⟨jump, hjump⟩ := onward_eq_advance tree here []
  rw [hjump, advance]

/-- Along some steps an action has come to the directory at their end, if it has not failed, and it has
created nothing but directories on the way. -/
structure Arrives (tree : FileTree) (origin : Standing) (steps : List Step)
    (after : Except FileFault Standing × FileTree) : Prop where
  grown : Grown origin steps tree after.2
  arrived : ∀ here, after.1 = .ok here →
    after.2.onward origin steps = .ok here ∧ after.2.isDirectory here.place = true

namespace Arrives

theorem failed (tree : FileTree) (origin : Standing) (steps : List Step) (fault : FileFault) :
    Arrives tree origin steps (.error fault, tree) :=
  ⟨.refl origin steps tree, nofun⟩

theorem after_grown {middle : FileTree} {after : Except FileFault Standing × FileTree}
    (grown : Grown origin steps tree middle) (arrives : Arrives middle origin steps after) :
    Arrives tree origin steps after :=
  ⟨grown.trans arrives.grown, arrives.arrived⟩

theorem bind {action : FileAction Standing} {next : Standing → FileAction Standing}
    (first : Arrives tree origin lead (action.run.run tree)) (hp : lead <+: steps)
    (others : ∀ here later, action.run.run tree = (.ok here, later) →
      Arrives later origin steps ((next here).run.run later)) :
    Arrives tree origin steps ((action >>= next).run.run tree) := by
  have grown := first.grown.mono hp
  generalize hrun : action.run.run tree = after at grown
  obtain ⟨outcome, later⟩ := after
  cases outcome with
  | ok here =>
    rw [run_bind_of_ok hrun]
    exact .after_grown grown (others here later hrun)
  | error fault =>
    rw [run_bind_of_error hrun]
    exact .after_grown grown (.failed later origin steps fault)

theorem tryCatch {action : FileAction Standing} {rescue : FileFault → FileAction Standing}
    (first : Arrives tree origin steps (action.run.run tree))
    (others : ∀ fault later, action.run.run tree = (.error fault, later) →
      later.current = tree.current → Arrives later origin steps ((rescue fault).run.run later)) :
    Arrives tree origin steps ((MonadExcept.tryCatch action rescue).run.run tree) := by
  rw [Matches.run_tryCatch]
  generalize hrun : action.run.run tree = after at first
  obtain ⟨outcome, later⟩ := after
  cases outcome with
  | ok here => exact first
  | error fault => exact .after_grown first.grown (others fault later hrun first.grown.current)

theorem stay {after : Except FileFault Standing × FileTree} (arrives : Arrives tree origin steps after) :
    Arrives tree origin (steps ++ [.stay]) after := by
  refine ⟨arrives.grown.mono (List.prefix_append _ _), fun here he => ?_⟩
  obtain ⟨ho, hd⟩ := arrives.arrived here he
  refine ⟨?_, hd⟩
  rw [onward_append, ho]
  exact (onward_nameless_eq_ok_iff (by simp)).2 ⟨hd, rfl⟩

theorem prepend {after : Except FileFault Standing × FileTree} (arrives : Arrives tree here steps after)
    (h : tree.onward origin lead = .ok here) : Arrives tree origin (lead ++ steps) after := by
  refine ⟨arrives.grown.prepend h, fun there he => ?_⟩
  obtain ⟨ho, hd⟩ := arrives.arrived there he
  refine ⟨?_, hd⟩
  rw [onward_append, arrives.grown.onward h]
  exact ho

end Arrives

theorem createChild_arrives (hd : tree.isDirectory here.place = true)
    (hl : ¬ longestName < name.utf8ByteSize) :
    Arrives tree here [.child name] ((createChild here name).run.run tree) := by
  unfold createChild
  rw [run_get_bind]
  split
  next => exact .failed tree here _ .alreadyExists
  next hs =>
    split
    next fault _ => exact .failed tree here _ fault
    next =>
      have hnone : tree.node? (name :: here.place) = none := Option.not_isSome_iff_eq_none.1 hs
      have hnew := node?_put_self tree (List.cons_ne_nil name here.place) .directory
      have hdir : (tree.put (name :: here.place) .directory).isDirectory here.place = true := by
        rw [isDirectory, node?_put_other tree (List.cons_ne_self name here.place).symm]
        exact hd
      have hway := onward_child hdir hl hnew (by simp)
      refine ⟨⟨current_put _ _ _, fun other => ?_, .put hd hl _⟩, fun there he => ?_⟩
      · by_cases ho : other = name :: here.place
        · subst ho
          exact .inr ⟨hnone, hnew, [.child name], here.child name, List.prefix_rfl, hway, rfl⟩
        · exact .inl (node?_put_other tree ho .directory)
      · cases he
        exact ⟨hway, beq_iff_eq.2 hnew⟩

theorem createDirectory_arrives (hopen : (Route.ofText path).steps.getLast? ≠ some .closing) :
    Arrives tree (tree.start (Route.ofText path)) (Route.ofText path).steps
      ((createDirectory path).run.run tree) := by
  unfold createDirectory
  rw [run_get_bind]
  split
  next fault _ => exact .failed _ _ _ fault
  next => exact .failed _ _ _ .alreadyExists
  next here name closed hs =>
    obtain ⟨route, hroute, lead, hlead, ho, hd, hl⟩ := slot_eq_ok hs
    cases route_eq_ok hroute
    cases closed with
    | true => exact absurd (by rw [hlead]; simp) hopen
    | false =>
      rw [hlead]
      exact (createChild_arrives hd hl).prepend ho

theorem excuse_arrives (tree : FileTree) (path : String) (fault : FileFault) :
    Arrives tree (tree.start (Route.ofText path)) (Route.ofText path).steps
      ((excuse path fault).run.run tree) := by
  unfold excuse
  rw [run_get_bind]
  split
  next here hr =>
    have hplace : tree.resolve path = .ok here.place := by
      rw [resolve, hr]
      rfl
    have hroute := route_of_resolve hplace
    split
    next hd =>
      refine ⟨.refl _ _ tree, fun there he => ?_⟩
      cases he
      exact ⟨(reach_eq hroute).symm.trans hr, hd⟩
    next => exact .failed _ _ _ fault
  next => exact .failed _ _ _ fault

theorem createLast_arrives {first segment : List Char} {outer : List (List Char)}
    (hplain : Path.Plain first (segment :: outer)) (hc : Path.counts segment = true)
    (hd : tree.isDirectory here.place = true) :
    Arrives tree here [Step.ofSegment segment]
      ((createLast here (Path.ofSteps first (segment :: outer))).run.run tree) := by
  unfold createLast
  rw [Path.last_ofSteps hplain hc]
  generalize Step.ofSegment segment = step
  cases step with
  | child name =>
    by_cases hl : longestName < name.utf8ByteSize
    · simp only [if_pos hl]
      exact .failed _ _ _ .nameTooLong
    · simp only [if_neg hl]
      exact createChild_arrives hd hl
  | _ => exact .failed _ _ _ .alreadyExists

theorem start_of_current {first second : FileTree} (h : first.current = second.current) (route : Route) :
    first.start route = second.start route := by
  rw [start, start, h]

/-- A directory whose ancestors are created first where it cannot be created at once. -/
theorem createAll_cons_arrives (tree : FileTree) {path : String} (paths : List String)
    (hopen : (Route.ofText path).steps.getLast? ≠ some .closing)
    (hmissing : ∀ later, (createDirectory path).run.run tree = (.error .notFound, later) →
      Arrives later (later.start (Route.ofText path)) (Route.ofText path).steps
        ((do let here ← createAll paths; tryCatch (createLast here path) (excuse path)).run.run later)) :
    Arrives tree (tree.start (Route.ofText path)) (Route.ofText path).steps
      ((createAll (path :: paths)).run.run tree) := by
  rw [createAll]
  apply (createDirectory_arrives hopen).tryCatch
  intro fault later hrun hcurrent
  rw [← start_of_current hcurrent]
  split
  next hf =>
    subst hf
    exact hmissing later hrun
  next => exact excuse_arrives later path fault

theorem route_root : FileTree.route "/" = .ok ⟨true, [.closing]⟩ := by decide

theorem reach_root (tree : FileTree) : tree.reach "/" = .ok (.fresh []) := by
  rw [reach, route_root]
  rfl

theorem createAll_root (tree : FileTree) : (createAll ["/"]).run.run tree = (.ok (.fresh []), tree) := by
  have hslot : tree.slot "/" = .ok ⟨.fresh [], none, true⟩ := by
    unfold slot
    rw [route_root]
    rfl
  have hcreate : (createDirectory "/").run.run tree = (.error .alreadyExists, tree) := by
    unfold createDirectory
    rw [run_get_bind, hslot]
    rfl
  have hexcuse : (excuse "/" .alreadyExists).run.run tree = (.ok (.fresh []), tree) := by
    unfold excuse
    rw [run_get_bind, reach_root]
    rfl
  rw [createAll, Matches.run_tryCatch, hcreate]
  exact hexcuse

/-- A path of one step fails for a fault of its own, not for want of something before it. -/
theorem slot_single {step : Step} (hne : path ≠ "") (hs : (Route.ofText path).steps = [step])
    (hopen : step ≠ .closing) : tree.slot path ≠ .error .notFound := by
  intro h
  unfold slot at h
  cases hr : FileTree.route path with
  | error fault =>
    rw [hr] at h
    have hf : fault = .notFound := Except.error.inj h
    subst hf
    unfold FileTree.route at hr
    split at hr
    · cases hr
    · split at hr
      · cases hr
      · split at hr
        next he => exact hne (beq_iff_eq.1 he)
        next => cases hr
  | ok route =>
    cases route_eq_ok hr
    rw [hr] at h
    simp only [bind, Except.bind, hs] at h
    simp only [List.getLast?_singleton, Option.some_beq_some, beq_iff_eq, hopen, ↓reduceIte,
      List.dropLast_singleton, onward_nil] at h
    split at h
    · cases h
    · split at h
      · split at h <;> cases h
      · cases h

theorem createDirectory_single {step : Step} {later : FileTree} (hne : path ≠ "")
    (hs : (Route.ofText path).steps = [step]) (hopen : step ≠ .closing) :
    (createDirectory path).run.run tree ≠ (.error .notFound, later) := by
  intro h
  unfold createDirectory at h
  rw [run_get_bind] at h
  split at h
  next fault hf =>
    cases h
    exact slot_single hne hs hopen hf
  next => cases h
  next here name _ _ =>
    unfold createChild at h
    rw [run_get_bind] at h
    split at h
    next => cases h
    next =>
      split at h
      next fault hf =>
        cases h
        exact tree.disk.creating_ne here.place hf
      next => cases h

theorem ofSegment_ne_closing (segment : List Char) : Step.ofSegment segment ≠ .closing := by
  unfold Step.ofSegment
  split
  · simp
  · split <;> simp

theorem getLast?_ne_closing {segment : List Char}
    (h : (Route.ofText path).steps = lead ++ [Step.ofSegment segment]) :
    (Route.ofText path).steps.getLast? ≠ some .closing := by
  rw [h, List.getLast?_concat]
  intro he
  exact ofSegment_ne_closing segment (Option.some.inj he)

theorem createAll_first_arrives (tree : FileTree) {first : List Char} (hplain : Path.Plain first [])
    (hf : first ≠ []) :
    Arrives tree (tree.start ⟨first == [], []⟩) (Path.way first [])
      ((createAll [Path.ofSteps first []]).run.run tree) := by
  have hroute : Route.ofText (Path.ofSteps first []) = ⟨first == [], Path.way first []⟩ :=
    Path.ofText_ofSteps hplain (fun h => hf h.1) (fun _ _ he => by cases he)
  have hsteps : (Route.ofText (Path.ofSteps first [])).steps = [Step.ofSegment first] := by
    rw [hroute]
    simp [Path.way, hf]
  have hne : Path.ofSteps first [] ≠ "" := by
    rw [Path.ofSteps, if_neg fun h => hf h.1]
    intro he
    exact hf (by simpa [Text.join] using he)
  have hconcat : (Route.ofText (Path.ofSteps first [])).steps = [] ++ [Step.ofSegment first] := hsteps
  have hall := createAll_cons_arrives tree [] (getLast?_ne_closing hconcat)
  rw [hroute] at hall
  apply hall
  intro later hrun
  exact absurd hrun (createDirectory_single hne hsteps (ofSegment_ne_closing first))

/-- One more segment of a path, its ancestors being created where they are needed. -/
theorem createAll_segment_arrives (tree : FileTree) {first segment : List Char} {outer : List (List Char)}
    (hplain : Path.Plain first (segment :: outer)) (hc : Path.counts segment = true)
    (houter : ∀ tree : FileTree, Arrives tree (tree.start ⟨first == [], []⟩) (Path.way first outer)
      ((createAll (Path.ancestorsFrom first outer)).run.run tree)) :
    Arrives tree (tree.start ⟨first == [], []⟩) (Path.way first (segment :: outer))
      ((createAll (Path.ancestorsFrom first (segment :: outer))).run.run tree) := by
  have hway : Path.way first (segment :: outer) = Path.way first outer ++ [Step.ofSegment segment] :=
    Path.way_cons_of_counts hc
  have hroute : Route.ofText (Path.ofSteps first (segment :: outer)) =
      ⟨first == [], Path.way first (segment :: outer)⟩ := by
    apply Path.ofText_ofSteps hplain (by simp)
    intro name others he
    cases he
    exact hc
  have hsteps : (Route.ofText (Path.ofSteps first (segment :: outer))).steps =
      Path.way first outer ++ [Step.ofSegment segment] := by
    rw [hroute, hway]
  have hall := createAll_cons_arrives tree (Path.ancestorsFrom first outer) (getLast?_ne_closing hsteps)
  rw [hroute] at hall
  rw [Path.ancestorsFrom, if_pos hc]
  apply hall
  intro later _
  -- the ancestors are created in the tree that the failed attempt has left
  have hancestors := houter later
  apply hancestors.bind (by rw [hway]; exact List.prefix_append _ _)
  intro here middle hrun
  rw [hrun] at hancestors
  obtain ⟨ho, hd⟩ := hancestors.arrived here rfl
  -- the directory that the ancestors have led to is where the last step starts
  have hlast := (createLast_arrives hplain hc hd).prepend ho
  rw [← hway] at hlast
  apply hlast.tryCatch
  intro fault last _ hcurrent
  have hexcuse := excuse_arrives last (Path.ofSteps first (segment :: outer)) fault
  rw [hroute] at hexcuse
  have hstart : last.start ⟨first == [], Path.way first (segment :: outer)⟩ =
      later.start ⟨first == [], []⟩ :=
    start_of_current (hcurrent.trans hancestors.grown.current) _
  rw [← hstart]
  exact hexcuse

theorem createAll_arrives (tree : FileTree) {first : List Char} {inner : List (List Char)}
    (hplain : Path.Plain first inner) :
    Arrives tree (tree.start ⟨first == [], []⟩) (Path.way first inner)
      ((createAll (Path.ancestorsFrom first inner)).run.run tree) := by
  induction inner generalizing tree with
  | nil =>
    by_cases hf : first = []
    · subst hf
      rw [Path.ancestorsFrom, show Path.ofSteps [] [] = "/" from rfl, createAll_root tree]
      refine ⟨.refl _ _ tree, fun here he => ?_⟩
      cases he
      exact ⟨onward_nil tree _, rfl⟩
    · exact createAll_first_arrives tree hplain hf
  | cons segment outer ih =>
    by_cases hc : Path.counts segment = true
    · exact createAll_segment_arrives tree hplain hc fun later => ih later hplain.tail
    · have houter := ih tree hplain.tail
      rw [Path.ancestorsFrom, if_neg hc, Path.way_cons]
      by_cases hn : segment = []
      · rw [if_pos hn, List.append_nil]
        exact houter
      · have hdot : segment = ['.'] := by simpa [Path.counts, hn] using hc
        rw [if_neg hn, hdot]
        exact houter.stay

/-- Creating a directory adds nothing but directories that its path leads through. -/
theorem createDirectories_grown (tree : FileTree) (path : String) :
    Grown (tree.start (Route.ofText path)) (Route.ofText path).steps tree
      ((createDirectories path).run.run tree).2 := by
  have hall : Grown (tree.start (Route.ofText path)) (Route.ofText path).steps tree
      ((createAll (Path.ancestors path)).run.run tree).2 := by
    by_cases hne : path = ""
    · rw [hne]
      exact .refl _ _ tree
    · have hstart : tree.start ⟨(Path.segments path).1 == [], []⟩ = tree.start (Route.ofText path) := by
        rw [start, start, show (Route.ofText path).absolute = _ from Path.isAbsolute_eq hne]
      have arrives := createAll_arrives tree (Path.plain_steps path)
      rw [hstart] at arrives
      rw [Path.ancestors, if_neg (by simpa using hne)]
      exact arrives.grown.mono (Path.way_prefix_steps path)
  unfold createDirectories
  rw [run_bind]
  generalize (createAll (Path.ancestors path)).run.run tree = after at hall
  obtain ⟨outcome, later⟩ := after
  cases outcome <;> exact hall

end FileTree

end SerialManifest

import SerialManifest.TypeFacts.Basic

namespace SerialManifest

variable {ε ε' σ α β : Type} {Good : σ → Prop}

theorem Except.bind_eq_ok_iff {result : Except ε α} {next : α → Except ε β} {value : β} :
    result.bind next = .ok value ↔ ∃ first, result = .ok first ∧ next first = .ok value := by
  cases result <;> simp [Except.bind]

theorem Except.map_eq_ok_iff {result : Except ε α} {change : α → β} {value : β} :
    result.map change = .ok value ↔ ∃ first, result = .ok first ∧ change first = value := by
  cases result <;> simp [Except.map]

@[simp]
theorem Except.mapError_ok {raise : ε → ε'} {value : α} :
    (.ok value : Except ε α).mapError raise = .ok value :=
  rfl

@[simp]
theorem Except.mapError_error {raise : ε → ε'} {error : ε} :
    (.error error : Except ε α).mapError raise = .error (raise error) :=
  rfl

theorem Except.mapError_eq_ok_iff {result : Except ε α} {raise : ε → ε'} {value : α} :
    result.mapError raise = .ok value ↔ result = .ok value := by
  cases result <;> simp

theorem Except.toOption_eq_some_iff {result : Except ε α} {value : α} :
    result.toOption = some value ↔ result = .ok value := by
  cases result <;> simp [Except.toOption]

theorem Except.isSome_toOption_iff {result : Except ε α} :
    result.toOption.isSome = true ↔ ∃ value, result = .ok value := by
  simp only [Option.isSome_iff_exists, Except.toOption_eq_some_iff]

theorem run_bind (action : ExceptT ε (StateM σ) α) (next : α → ExceptT ε (StateM σ) β) (memory : σ) :
    (action >>= next).run.run memory =
      match action.run.run memory with
      | (.ok value, later) => (next value).run.run later
      | (.error error, later) => (.error error, later) := by
  simp only [ExceptT.run_bind, StateT.run_bind]
  generalize action.run.run memory = after
  obtain ⟨result, later⟩ := after
  cases result <;> rfl

theorem run_bind_of_ok {action : ExceptT ε (StateM σ) α} {next : α → ExceptT ε (StateM σ) β}
    {memory later : σ} {value : α} (h : action.run.run memory = (.ok value, later)) :
    (action >>= next).run.run memory = (next value).run.run later := by
  rw [run_bind, h]

theorem run_bind_of_error {action : ExceptT ε (StateM σ) α} {next : α → ExceptT ε (StateM σ) β}
    {memory later : σ} {error : ε} (h : action.run.run memory = (.error error, later)) :
    (action >>= next).run.run memory = (.error error, later) := by
  rw [run_bind, h]

theorem run_adapt (action : ExceptT ε (StateM σ) α) (raise : ε → ε') (memory : σ) :
    (action.adapt raise).run.run memory =
      ((action.run.run memory).1.mapError raise, (action.run.run memory).2) :=
  rfl

theorem run_bind_eq_ok_iff {action : ExceptT ε (StateM σ) α} {next : α → ExceptT ε (StateM σ) β}
    {memory later : σ} {value : β} : (action >>= next).run.run memory = (.ok value, later) ↔
      ∃ first middle, action.run.run memory = (.ok first, middle) ∧
        (next first).run.run middle = (.ok value, later) := by
  rw [run_bind]
  generalize action.run.run memory = after
  obtain ⟨result, middle⟩ := after
  cases result with
  | error error => exact ⟨nofun, fun ⟨_, _, he, _⟩ => nomatch he⟩
  | ok first =>
    constructor
    · exact fun h => ⟨first, middle, rfl, h⟩
    · rintro ⟨_, _, he, h⟩
      cases he
      exact h

theorem run_get_bind (next : σ → ExceptT ε (StateM σ) α) (memory : σ) :
    (get >>= next).run.run memory = (next memory).run.run memory :=
  rfl

theorem run_adapt_eq_ok_iff {action : ExceptT ε (StateM σ) α} {raise : ε → ε'} {memory later : σ}
    {value : α} : (action.adapt raise).run.run memory = (.ok value, later) ↔
      action.run.run memory = (.ok value, later) := by
  rw [run_adapt, Prod.mk.injEq, Except.mapError_eq_ok_iff, Prod.ext_iff]

/-- What an action comes to that has nothing to remember. -/
def outcomeOf (action : ExceptT ε (StateM Unit) α) : Except ε α :=
  (action.run.run ()).1

def told (outcome : Except ε α) : ExceptT ε (StateM Unit) α :=
  ExceptT.mk (Pure.pure outcome)

@[simp] theorem outcomeOf_told (outcome : Except ε α) : outcomeOf (told outcome) = outcome :=
  rfl

@[simp] theorem outcomeOf_pure (value : α) :
    outcomeOf (pure value : ExceptT ε (StateM Unit) α) = .ok value :=
  rfl

@[simp] theorem outcomeOf_bind (action : ExceptT ε (StateM Unit) α) (next : α → ExceptT ε (StateM Unit) β) :
    outcomeOf (action >>= next) = (outcomeOf action).bind fun value => outcomeOf (next value) := by
  unfold outcomeOf
  rw [run_bind]
  generalize action.run.run () = after
  obtain ⟨result, later⟩ := after
  cases result <;> rfl

/-- From every `Good` memory the action gives this answer, and it leaves a `Good` memory. -/
def Gives (Good : σ → Prop) (action : ExceptT ε (StateM σ) α) (answer : Except ε α) : Prop :=
  ∀ memory, Good memory → (action.run.run memory).1 = answer ∧ Good (action.run.run memory).2

namespace Gives

theorem pure (value : α) : Gives Good (Pure.pure value : ExceptT ε (StateM σ) α) (.ok value) :=
  fun _ good => ⟨rfl, good⟩

theorem throw (error : ε) : Gives Good (throw error : ExceptT ε (StateM σ) α) (.error error) :=
  fun _ good => ⟨rfl, good⟩

theorem bind {action : ExceptT ε (StateM σ) α} {next : α → ExceptT ε (StateM σ) β}
    {answer : Except ε α} {rest : α → Except ε β} (first : Gives Good action answer)
    (others : ∀ value, answer = .ok value → Gives Good (next value) (rest value)) :
    Gives Good (action >>= next) (answer.bind rest) := by
  intro memory good
  obtain ⟨ha, hm⟩ := first memory good
  rw [run_bind]
  generalize action.run.run memory = after at ha hm
  obtain ⟨result, later⟩ := after
  cases ha
  cases result with
  | error error => exact ⟨rfl, hm⟩
  | ok value => exact others value rfl later hm

/-- What is remembered may decide how the answer is found, but not the answer. -/
theorem get_bind {next : σ → ExceptT ε (StateM σ) α} {answer : Except ε α}
    (h : ∀ memory, Good memory → Gives Good (next memory) answer) : Gives Good (get >>= next) answer :=
  fun memory good => h memory good memory good

/-- Remembering more does not change what is answered. -/
theorem modify_then {change : σ → σ} {next : ExceptT ε (StateM σ) α} {answer : Except ε α}
    (hc : ∀ memory, Good memory → Good (change memory)) (hn : Gives Good next answer) :
    Gives Good (do modify change; next) answer :=
  fun memory good => hn (change memory) (hc memory good)

theorem adapt {action : ExceptT ε (StateM σ) α} {answer : Except ε α} (raise : ε → ε')
    (h : Gives Good action answer) : Gives Good (action.adapt raise) (answer.mapError raise) := by
  intro memory good
  obtain ⟨ha, hm⟩ := h memory good
  rw [run_adapt, ha]
  exact ⟨rfl, hm⟩

theorem foldlM {γ : Type} {step : α → γ → ExceptT ε (StateM σ) α} {outcome : α → γ → Except ε α}
    (h : ∀ value item, Gives Good (step value item) (outcome value item)) (items : List γ) (start : α) :
    Gives Good (items.foldlM step start) (items.foldlM outcome start) := by
  induction items generalizing start with
  | nil => exact .pure start
  | cons item items ih => exact (h start item).bind fun value _ => ih value

end Gives

/-- Someone whose answers are those of someone else who has nothing to remember. -/
structure TypeFacts.Follows (Good : σ → Prop) (remembering : TypeFacts σ) (facts : TypeFacts Unit) :
    Prop where
  kind : ∀ name, Gives Good (remembering.kind name) (outcomeOf (facts.kind name))
  isAbstract : ∀ name, Gives Good (remembering.isAbstract name) (outcomeOf (facts.isAbstract name))
  simpleName : ∀ name, Gives Good (remembering.simpleName name) (outcomeOf (facts.simpleName name))
  implements : ∀ name capability,
    Gives Good (remembering.implements name capability) (outcomeOf (facts.implements name capability))
  field? : ∀ name field, Gives Good (remembering.field? name field) (outcomeOf (facts.field? name field))

theorem TypeFacts.follows_self (facts : TypeFacts Unit) : facts.Follows (fun _ => True) facts where
  kind _ := fun _ _ => ⟨rfl, trivial⟩
  isAbstract _ := fun _ _ => ⟨rfl, trivial⟩
  simpleName _ := fun _ _ => ⟨rfl, trivial⟩
  implements _ _ := fun _ _ => ⟨rfl, trivial⟩
  field? _ _ := fun _ _ => ⟨rfl, trivial⟩

end SerialManifest

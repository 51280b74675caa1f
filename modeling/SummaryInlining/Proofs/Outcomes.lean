/-!
# Outcomes of actions that can fail

An action with a state may fail, and leaves a state behind either way. Its outcome from a state is
the answer or the failure together with the state that is left. The outcome of a sequence of actions
is put together from theirs (`outcomeIn_bind`).
-/

set_option autoImplicit false

namespace SummaryInlining

/-- What an action that can fail answers in a state, and the state that it leaves behind. -/
def outcomeIn {ε σ α : Type} (action : ExceptT ε (StateM σ) α) (state : σ) : Except ε α × σ :=
  Id.run (StateT.run (ExceptT.run action) state)

section

variable {ε σ α β γ : Type} {action : ExceptT ε (StateM σ) α} {before after : σ}

/-- Answering at once leaves the state alone. -/
@[simp] theorem outcomeIn_pure (value : α) (state : σ) :
    outcomeIn (pure value : ExceptT ε (StateM σ) α) state = (.ok value, state) := rfl

/-- What follows an action goes on in the state that the action leaves. It does not happen when the
action fails. -/
theorem outcomeIn_bind (action : ExceptT ε (StateM σ) α) (next : α → ExceptT ε (StateM σ) β)
    (state : σ) :
    outcomeIn (action >>= next) state =
      match outcomeIn action state with
      | (.ok value, after) => outcomeIn (next value) after
      | (.error e, after) => (.error e, after) := by
  simp only [outcomeIn, bind, ExceptT.run, ExceptT.bind, ExceptT.mk, StateT.run, StateT.bind,
    Id.run, ExceptT.bindCont]
  generalize action state = result
  obtain ⟨result, after⟩ := result
  cases result <;> rfl

/-- What comes after an action that succeeds goes on with its answer and its state. -/
theorem outcomeIn_bind_of_ok {value : α} (h : outcomeIn action before = (.ok value, after))
    (next : α → ExceptT ε (StateM σ) β) :
    outcomeIn (action >>= next) before = outcomeIn (next value) after := by
  rw [outcomeIn_bind, h]

/-- An action that answers has an answer from each of its parts. -/
theorem exists_of_outcomeIn_bind {next : α → ExceptT ε (StateM σ) β} {answer : β}
    (h : outcomeIn (action >>= next) before = (.ok answer, after)) :
    ∃ value middle, outcomeIn action before = (.ok value, middle) ∧
      outcomeIn (next value) middle = (.ok answer, after) := by
  rw [outcomeIn_bind] at h
  cases hfirst : outcomeIn action before with
  | mk result middle =>
    rw [hfirst] at h
    cases result with
    | error e => cases h
    | ok value => exact ⟨value, middle, rfl, h⟩

/-- An action that succeeds succeeds with whatever is made of its answer. -/
theorem outcomeIn_map_of_ok {value : α} (h : outcomeIn action before = (.ok value, after))
    (f : α → β) :
    outcomeIn (action >>= fun a => pure (f a)) before = (.ok (f value), after) := by
  rw [outcomeIn_bind_of_ok h, outcomeIn_pure]

/-- Two actions that succeed in a row succeed with whatever is made of their answers. -/
theorem outcomeIn_map₂_of_ok {other : ExceptT ε (StateM σ) β} {middle : σ} {value : α}
    {value' : β} (h : outcomeIn action before = (.ok value, middle))
    (h' : outcomeIn other middle = (.ok value', after)) (f : α → β → γ) :
    outcomeIn (action >>= fun a => other >>= fun b => pure (f a b)) before =
      (.ok (f value value'), after) := by
  rw [outcomeIn_bind_of_ok h, outcomeIn_map_of_ok h']

end

end SummaryInlining

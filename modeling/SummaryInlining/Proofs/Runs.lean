/-!
# Runs of two machines side by side

A machine takes requests of a type `C`, answers each one, and may act on a world `σ` that it shares
with no other. Two machines have the same effect when they give the same answers and act on the
world in the same way, and end in states that a relation connects. If every request preserves this
relation, so does every list of requests (`sameEffect_runAll`).
-/

set_option autoImplicit false

namespace SummaryInlining

variable {σ A B C S T S' T' : Type}

/-- Makes requests one after the other, and collects the answers. -/
def runAll (perform : C → S → StateM σ (A × S)) : List C → S → StateM σ (List A × S)
  | [], s => pure ([], s)
  | request :: rest, s => do
    let (answer, after) ← perform request s
    let (answers, last) ← runAll perform rest after
    return (answer :: answers, last)

/-- What comes after an action is run with its answer, in the world that it leaves behind. -/
theorem run_bind {action : StateM σ A} {next : A → StateM σ B} {a : A} {world after : σ}
    (h : action.run world = (a, after)) : (action >>= next).run world = (next a).run after := by
  rw [StateT.run_bind, h]
  rfl

/-- A request behind others is made in the state that they lead to. -/
theorem run_runAll_append_singleton {perform : C → S → StateM σ (A × S)} {requests : List C}
    {s between last : S} {answers : List A} {answer : A} {world world' after : σ} {request : C}
    (h : (runAll perform requests s).run world = ((answers, between), world'))
    (hrequest : (perform request between).run world' = ((answer, last), after)) :
    (runAll perform (requests ++ [request]) s).run world =
      ((answers ++ [answer], last), after) := by
  induction requests generalizing s world answers with
  | nil =>
    have hnothing : (([], s), world) = ((answers, between), world') := h
    cases hnothing
    exact run_bind hrequest
  | cons first rest ih =>
    cases hfirst : (perform first s).run world with
    | mk answered middle =>
      cases hrest : (runAll perform rest answered.2).run middle with
      | mk others final =>
        have hall := (run_bind hfirst).symm.trans h
        rw [run_bind hrest] at hall
        cases hall
        exact (run_bind hfirst).trans (run_bind (ih hrest))

/-- Two actions have the same answer and the same effect on the world, and end in related states. -/
def SameEffect (R : S → T → Prop) (first : StateM σ (A × S)) (second : StateM σ (A × T)) : Prop :=
  ∀ world, ∃ answer s t after, first.run world = ((answer, s), after) ∧
    second.run world = ((answer, t), after) ∧ R s t

/-- Answering at once has the same effect in related states. -/
theorem sameEffect_pure {R : S → T → Prop} (answer : A) {s : S} {t : T} (h : R s t) :
    SameEffect (σ := σ) R (pure (answer, s)) (pure (answer, t)) :=
  fun world => ⟨answer, s, t, world, rfl, rfl, h⟩

/-- Two actions in a row have the same effect, if each has. -/
theorem SameEffect.bind {R : S → T → Prop} {R' : S' → T' → Prop} {first : StateM σ (A × S)}
    {second : StateM σ (A × T)} {next : A × S → StateM σ (B × S')}
    {next' : A × T → StateM σ (B × T')} (h : SameEffect R first second)
    (hnext : ∀ answer s t, R s t → SameEffect R' (next (answer, s)) (next' (answer, t))) :
    SameEffect R' (first >>= next) (second >>= next') := by
  intro world
  obtain ⟨answer, s, t, between, hs, ht, hrelated⟩ := h world
  obtain ⟨answer', s', t', after, hs', ht', hrelated'⟩ := hnext answer s t hrelated between
  exact ⟨answer', s', t', after, (run_bind hs).trans hs', (run_bind ht).trans ht', hrelated'⟩

/-- What one request preserves, every list of requests preserves. -/
theorem sameEffect_runAll {R : S → T → Prop} {perform : C → S → StateM σ (A × S)}
    {other : C → T → StateM σ (A × T)}
    (hstep : ∀ (request : C) (s : S) (t : T), R s t →
      SameEffect R (perform request s) (other request t))
    (requests : List C) {s : S} {t : T} (h : R s t) :
    SameEffect R (runAll perform requests s) (runAll other requests t) := by
  induction requests generalizing s t with
  | nil => exact sameEffect_pure [] h
  | cons request rest ih =>
    refine (hstep request s t h).bind fun answer s' t' hrelated => ?_
    exact (ih hrelated).bind fun answers s'' t'' hlast => sameEffect_pure (answer :: answers) hlast

end SummaryInlining

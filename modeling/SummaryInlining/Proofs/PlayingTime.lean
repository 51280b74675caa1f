import Mathlib.Algebra.Order.Group.Int
import Mathlib.Algebra.Order.Group.Unbundled.Basic
import Mathlib.Data.List.Induction
import Mathlib.Data.List.ReduceOption
import Mathlib.Tactic.Abel
import SummaryInlining.Trace.Stopwatch

/-!
# The time that a stopwatch measures

A stopwatch is used at points of time: it is resumed, paused and measured, in any order. It plays
from the beginning, and behind a use it plays if the last use that was no measurement resumed it
(`playsBehind`). The time it has been playing is the length of all stretches between two uses during
which it played (`playedTime`), and this is what it measures.

Times are exact: they can be added and subtracted, as in any ordered group. What a use does is then
said by three facts. It leaves the reading at its own time as it is (`reading_act`), it decides
whether the stopwatch plays (`isPlaying_act`), and from one point of time to another the reading
grows by the time between them if the stopwatch plays, and not at all if it is paused
(`reading_eq_add`).
-/

set_option autoImplicit false

namespace SummaryInlining

namespace Stopwatch

/-- What can be done with a stopwatch. -/
inductive Action where
  | resume
  | pause
  | measure
  deriving DecidableEq

/-- Whether a stopwatch plays behind an action. A measurement does not decide this. -/
def Action.plays? : Action → Option Bool
  | .resume => some true
  | .pause => some false
  | .measure => none

/-- An action at a point of time. -/
structure Use (τ : Type) where
  action : Action
  /-- What the clock shows during the action. -/
  time : τ

/-! ## Which time counts -/

section

variable {τ : Type}

/-- Whether a stopwatch plays behind these uses: the last one that decides it does, and it plays
from the beginning. -/
def playsBehind (uses : List (Use τ)) : Bool :=
  (uses.filterMap (·.action.plays?)).getLast?.getD true

/-- The time from one use to the next one, with all uses in front of it. -/
structure Stretch (τ : Type) where
  earlier : List (Use τ)
  start : τ
  stop : τ

/-- The stretches that some uses cut the time from `start` to `now` into. The uses in front of
`start` are `earlier`. -/
def stretches (earlier : List (Use τ)) (start : τ) : List (Use τ) → τ → List (Stretch τ)
  | [], now => [⟨earlier, start, now⟩]
  | use :: rest, now =>
    ⟨earlier, start, use.time⟩ :: stretches (earlier ++ [use]) use.time rest now

/-- How long a stopwatch that is made at `start` has been playing up to `now`. -/
def playedTime [AddCommGroup τ] (start : τ) (uses : List (Use τ)) (now : τ) : τ :=
  (((stretches [] start uses now).filter fun stretch => playsBehind stretch.earlier).map
    fun stretch => stretch.stop - stretch.start).sum

/-- The last use decides whether a stopwatch plays behind it, unless it is a measurement. -/
theorem playsBehind_append_singleton (uses : List (Use τ)) (use : Use τ) :
    playsBehind (uses ++ [use]) = use.action.plays?.getD (playsBehind uses) := by
  unfold playsBehind
  cases h : use.action.plays? with
  | none => simp [h]
  | some plays => simp [h]

/-- A use that comes last begins a new stretch. -/
theorem stretches_append_singleton (earlier : List (Use τ)) (start : τ) (uses : List (Use τ))
    (use : Use τ) (now : τ) :
    stretches earlier start (uses ++ [use]) now =
      stretches earlier start uses use.time ++ [⟨earlier ++ (uses ++ [use]), use.time, now⟩] := by
  induction uses generalizing earlier start with
  | nil => rfl
  | cons first rest ih =>
    rw [List.cons_append, stretches, stretches, ih]
    simp

/-- An unused stopwatch has been playing all the time. -/
theorem playedTime_nil [AddCommGroup τ] (start now : τ) :
    playedTime start [] now = now - start :=
  List.sum_singleton

/-- The last use ends the stretch in front of it and begins one more. -/
theorem playedTime_append_singleton [AddCommGroup τ] (start : τ) (uses : List (Use τ))
    (use : Use τ) (now : τ) :
    playedTime start (uses ++ [use]) now = playedTime start uses use.time +
      if playsBehind (uses ++ [use]) then now - use.time else 0 := by
  rw [playedTime, stretches_append_singleton, List.filter_append, List.map_append, List.sum_append,
    ← playedTime, List.nil_append]
  cases h : playsBehind (uses ++ [use]) with
  | false => simp [h]
  | true => simp [h]

end

/-! ## What a use does -/

section

variable {τ : Type} [AddCommGroup τ]

def isPlaying : Stopwatch τ → Bool
  | .paused _ => false
  | .playing _ _ => true

/-- What a stopwatch measures when the clock shows `now`. -/
def reading (watch : Stopwatch τ) (now : τ) : τ := (watch.measure (pure now : Id τ)).run

/-- Uses a stopwatch: what it answers, which is something for a measurement only, and the stopwatch
behind the use. -/
def act (watch : Stopwatch τ) (use : Use τ) : Option τ × Stopwatch τ :=
  let clock : Id τ := pure use.time
  match use.action with
  | .resume => (none, (watch.resume clock).run)
  | .pause => (none, (watch.pause clock).run)
  | .measure => (some (watch.measure clock).run, watch)

/-- What a stopwatch answers to uses, one after the other. -/
def answersTo (watch : Stopwatch τ) : List (Use τ) → List (Option τ)
  | [] => []
  | use :: rest => (watch.act use).1 :: (watch.act use).2.answersTo rest

/-- The stopwatch behind uses. -/
def behind (watch : Stopwatch τ) (uses : List (Use τ)) : Stopwatch τ :=
  uses.foldl (fun watch use => (watch.act use).2) watch

/-- The stopwatch that is made when the clock shows `start`. -/
def madeAt (start : τ) : Stopwatch τ := (Stopwatch.new 0 (pure start : Id τ)).run

/-- What a stopwatch that is made at `start` answers to `uses` when it has gone through the uses
`earlier`. -/
def answersBehind (start : τ) (earlier uses : List (Use τ)) : List (Option τ) :=
  ((madeAt start).answersTo (earlier ++ uses)).drop earlier.length

section

variable (watch : Stopwatch τ) (use : Use τ)

/-- A stopwatch answers to measurements, with its reading. -/
theorem answer_act :
    (watch.act use).1 = if use.action = .measure then some (watch.reading use.time) else none := by
  obtain ⟨action, time⟩ := use
  cases action <;> rfl

/-- A use leaves the reading at its own time as it is. -/
theorem reading_act : (watch.act use).2.reading use.time = watch.reading use.time := by
  obtain ⟨action, time⟩ := use
  cases watch with
  | paused ran =>
    cases action with
    | resume => exact add_sub_cancel_right ran time
    | pause => rfl
    | measure => rfl
  | playing ran since => cases action <;> rfl

/-- Whether a stopwatch plays behind a use is decided by the action, or as it was before. -/
theorem isPlaying_act : (watch.act use).2.isPlaying = use.action.plays?.getD watch.isPlaying := by
  obtain ⟨action, time⟩ := use
  cases watch <;> cases action <;> rfl

/-- Only while a stopwatch plays does its reading grow. -/
theorem reading_eq_add (earlier later : τ) :
    watch.reading later =
      watch.reading earlier + if watch.isPlaying then later - earlier else 0 := by
  cases watch with
  | paused ran => exact (add_zero ran).symm
  | playing ran since =>
    show ran + later - since = ran + earlier - since + (later - earlier)
    abel

end

/-- Uses change a stopwatch one after the other. -/
theorem behind_append (watch : Stopwatch τ) (first second : List (Use τ)) :
    watch.behind (first ++ second) = (watch.behind first).behind second :=
  List.foldl_append

/-- Uses behind others are answered by the stopwatch behind those. -/
theorem answersTo_append (watch : Stopwatch τ) (first second : List (Use τ)) :
    watch.answersTo (first ++ second) =
      watch.answersTo first ++ (watch.behind first).answersTo second := by
  induction first generalizing watch with
  | nil => rfl
  | cons use rest ih => exact congrArg ((watch.act use).1 :: ·) (ih (watch.act use).2)

/-- Every use has an answer, though it may be empty. -/
theorem length_answersTo (watch : Stopwatch τ) (uses : List (Use τ)) :
    (watch.answersTo uses).length = uses.length := by
  induction uses generalizing watch with
  | nil => rfl
  | cons use rest ih => exact congrArg Nat.succ (ih (watch.act use).2)

/-- The answers behind earlier uses are those of the stopwatch behind them. -/
theorem answersBehind_eq (start : τ) (earlier uses : List (Use τ)) :
    answersBehind start earlier uses = ((madeAt start).behind earlier).answersTo uses := by
  rw [answersBehind, answersTo_append]
  exact List.drop_left' (length_answersTo _ _)

end

/-! ## What uses do, one after the other -/

section

variable {τ : Type} [AddCommGroup τ]

/-- Whether a stopwatch plays is what its uses so far say. -/
theorem isPlaying_behind_madeAt (start : τ) (uses : List (Use τ)) :
    ((madeAt start).behind uses).isPlaying = playsBehind uses := by
  induction uses using List.reverseRecOn with
  | nil => rfl
  | append_singleton uses use ih =>
    rw [behind_append, playsBehind_append_singleton, ← ih]
    exact isPlaying_act _ use

/-- What a stopwatch measures is how long it has been playing. -/
theorem reading_behind_madeAt (start : τ) (uses : List (Use τ)) (now : τ) :
    ((madeAt start).behind uses).reading now = playedTime start uses now := by
  induction uses using List.reverseRecOn generalizing now with
  | nil =>
    rw [playedTime_nil]
    exact congrArg (· - start) (zero_add now)
  | append_singleton uses use ih =>
    have hreading : ((madeAt start).behind (uses ++ [use])).reading use.time =
        playedTime start uses use.time := by
      rw [← ih, behind_append]
      exact reading_act _ use
    rw [playedTime_append_singleton, ← hreading, ← isPlaying_behind_madeAt start]
    exact reading_eq_add _ use.time now

/-- Two stopwatches that play at the same times, one of them ahead of the other, stay so. -/
theorem answersTo_ahead {watch other : Stopwatch τ} (ahead : τ)
    (hplaying : other.isPlaying = watch.isPlaying)
    (hreading : ∀ now, other.reading now = watch.reading now + ahead) (uses : List (Use τ)) :
    other.answersTo uses = (watch.answersTo uses).map (Option.map (· + ahead)) := by
  induction uses generalizing watch other with
  | nil => rfl
  | cons use rest ih =>
    have hplaying' : (other.act use).2.isPlaying = (watch.act use).2.isPlaying := by
      rw [isPlaying_act, isPlaying_act, hplaying]
    have hreading' (now : τ) :
        (other.act use).2.reading now = (watch.act use).2.reading now + ahead := by
      rw [reading_eq_add _ use.time now, reading_eq_add (watch.act use).2 use.time now,
        reading_act, reading_act, hplaying', hreading]
      abel
    rw [answersTo, answersTo, List.map_cons, ih hplaying' hreading', answer_act, answer_act,
      hreading]
    split <;> rfl

/-- Nothing but a resumption changes a paused stopwatch. -/
theorem behind_of_paused {watch : Stopwatch τ} (hpaused : watch.isPlaying = false)
    {uses : List (Use τ)} (huses : ∀ use ∈ uses, use.action ≠ .resume) :
    watch.behind uses = watch := by
  induction uses with
  | nil => rfl
  | cons use rest ih =>
    obtain ⟨huse, hrest⟩ := List.forall_mem_cons.mp huses
    have hact : (watch.act use).2 = watch := by
      obtain ⟨action, time⟩ := use
      cases watch with
      | playing ran since => cases hpaused
      | paused ran =>
        cases action with
        | resume => exact absurd rfl huse
        | pause => rfl
        | measure => rfl
    show (watch.act use).2.behind rest = watch
    rw [hact]
    exact ih hrest

/-- Behind a resumption the reading grows. -/
theorem reading_act_resume (watch : Stopwatch τ) (time now : τ) :
    (watch.act ⟨.resume, time⟩).2.reading now = watch.reading time + (now - time) := by
  rw [reading_eq_add _ time now, isPlaying_act, reading_act watch ⟨.resume, time⟩]
  rfl

/-- Behind a pause the reading stays as it is. -/
theorem reading_act_pause (watch : Stopwatch τ) (time now : τ) :
    (watch.act ⟨.pause, time⟩).2.reading now = watch.reading time := by
  rw [reading_eq_add _ time now, isPlaying_act, reading_act watch ⟨.pause, time⟩]
  exact add_zero _

/-- Whatever is done from a pause up to the next resumption: a stopwatch that is merely resumed at
the time of the pause is ahead by the time between the two, and otherwise answers the same. -/
theorem answersTo_behind_pause (watch : Stopwatch τ) (paused resumed : τ) {idle : List (Use τ)}
    (hidle : ∀ use ∈ idle, use.action ≠ .resume) (uses : List (Use τ)) :
    (watch.behind [⟨.resume, paused⟩]).answersTo uses =
      ((watch.behind (⟨.pause, paused⟩ :: (idle ++ [⟨.resume, resumed⟩]))).answersTo uses).map
        (Option.map (· + (resumed - paused))) := by
  have hidle' : (watch.act ⟨.pause, paused⟩).2.behind idle = (watch.act ⟨.pause, paused⟩).2 :=
    behind_of_paused (isPlaying_act watch ⟨.pause, paused⟩) hidle
  have hbehind : watch.behind (⟨.pause, paused⟩ :: (idle ++ [⟨.resume, resumed⟩])) =
      ((watch.act ⟨.pause, paused⟩).2.act ⟨.resume, resumed⟩).2 := by
    show (watch.act ⟨.pause, paused⟩).2.behind (idle ++ [⟨.resume, resumed⟩]) = _
    rw [behind_append, hidle']
    rfl
  rw [hbehind]
  refine answersTo_ahead (resumed - paused) ?_ (fun now => ?_) uses
  · show (watch.act ⟨.resume, paused⟩).2.isPlaying = _
    rw [isPlaying_act, isPlaying_act]
    rfl
  · calc (watch.act ⟨.resume, paused⟩).2.reading now
        = watch.reading paused + (now - paused) := reading_act_resume watch paused now
      _ = watch.reading paused + (now - resumed) + (resumed - paused) := by abel
      _ = _ := by rw [reading_act_resume, reading_act_pause]

/-- Measured at times that do not go back, a stopwatch never answers less than before. -/
theorem isChain_answersTo [LinearOrder τ] [IsOrderedAddMonoid τ] {watch : Stopwatch τ}
    {now least : τ} {uses : List (Use τ)} (htimes : (now :: uses.map (·.time)).IsChain (· ≤ ·))
    (hleast : least ≤ watch.reading now) :
    (least :: (watch.answersTo uses).reduceOption).IsChain (· ≤ ·) := by
  induction uses generalizing watch now least with
  | nil => exact .singleton least
  | cons use rest ih =>
    obtain ⟨hnow, hrest⟩ := List.isChain_cons_cons.mp htimes
    have hgrows : watch.reading now ≤ watch.reading use.time := by
      rw [reading_eq_add watch now use.time]
      refine le_add_of_nonneg_right ?_
      split
      · exact sub_nonneg.mpr hnow
      · exact le_rfl
    have hreading := reading_act watch use
    rw [answersTo, answer_act]
    split
    · rw [List.reduceOption_cons_of_some, List.isChain_cons_cons]
      exact ⟨hleast.trans hgrows, ih hrest hreading.ge⟩
    · rw [List.reduceOption_cons_of_none]
      exact ih hrest ((hleast.trans hgrows).trans hreading.ge)

end

/-- Over exact times, a stopwatch that is made at `start` answers every measurement with the time
that it has been playing since then, and answers everything behind the measurement as if it had not
been made. If the times do not go back, its answers are not negative and never decrease. From a
pause to the resumption that ends it, whatever else is done in between, exactly the time between the
two is left out: all later answers are smaller by it than those of a stopwatch that plays on at the
time of the pause. -/
theorem measures_playing_time {τ : Type} [AddCommGroup τ] [LinearOrder τ] [IsOrderedAddMonoid τ]
    (start : τ) (uses : List (Use τ)) (htimes : (start :: uses.map (·.time)).Pairwise (· ≤ ·)) :
    (0 :: (answersBehind start [] uses).reduceOption).Pairwise (· ≤ ·) ∧
    (∀ (earlier later : List (Use τ)) (now : τ),
      answersBehind start earlier (⟨.measure, now⟩ :: later) =
        some (playedTime start earlier now) :: answersBehind start earlier later) ∧
    ∀ (earlier idle later : List (Use τ)) (paused resumed : τ),
      (∀ use ∈ idle, use.action ≠ .resume) →
        answersBehind start (earlier ++ [⟨.resume, paused⟩]) later =
          (answersBehind start (earlier ++ ⟨.pause, paused⟩ :: (idle ++ [⟨.resume, resumed⟩]))
            later).map (Option.map (· + (resumed - paused))) := by
  refine ⟨?_, fun earlier later now => ?_, fun earlier idle later paused resumed hidle => ?_⟩
  · have hstart : 0 ≤ (madeAt start).reading start := (add_sub_cancel_right 0 start).ge
    rw [← List.isChain_iff_pairwise] at htimes ⊢
    exact isChain_answersTo htimes hstart
  · rw [answersBehind_eq, answersBehind_eq, answersTo, answer_act, if_pos rfl,
      reading_behind_madeAt]
    rfl
  · rw [answersBehind_eq, answersBehind_eq, behind_append, behind_append]
    exact answersTo_behind_pause _ paused resumed hidle later

/-- Measurements before, during and after a pause of 85 units. -/
def measuredAroundPause : List (Use ℤ) :=
  [⟨.measure, 15⟩, ⟨.pause, 15⟩, ⟨.measure, 100⟩, ⟨.resume, 100⟩, ⟨.measure, 103⟩]

/-- The stopwatch has been playing for 5 units before the pause and for 3 units behind it. -/
theorem measuredAroundPause_leaves_pause_out :
    ((10 : ℤ) :: measuredAroundPause.map (·.time)).Pairwise (· ≤ ·) ∧
      (answersBehind 10 [] measuredAroundPause).reduceOption = [5, 5, 8] ∧
      ([0, 5, 5, 8] : List ℤ).Pairwise (· ≤ ·) ∧
      answersBehind 10 (measuredAroundPause.take 4) [⟨.measure, 103⟩] =
        [some (playedTime 10 (measuredAroundPause.take 4) 103)] ∧
      playedTime 10 (measuredAroundPause.take 4) 103 = 8 := by
  have htimes : ((10 : ℤ) :: measuredAroundPause.map (·.time)).Pairwise (· ≤ ·) := by decide
  obtain ⟨hgrows, hmeasures, -⟩ := measures_playing_time 10 measuredAroundPause htimes
  exact ⟨htimes, rfl, hgrows, hmeasures _ [] 103, rfl⟩

end Stopwatch

end SummaryInlining

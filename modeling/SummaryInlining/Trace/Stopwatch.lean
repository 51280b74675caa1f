/-!
# Stopwatches

A stopwatch measures the time during which it was playing, leaving out the time during which it
was paused. It works over any kind of time that can be added and subtracted, and reads its clock,
an action, only when it has to: when it starts or stops playing, and when it is measured while
playing.
-/

set_option autoImplicit false

namespace SummaryInlining

/-- A stopwatch over the times `τ`. -/
inductive Stopwatch (τ : Type) where
  /-- It ran for this long and is paused. -/
  | paused (ran : τ)
  /-- It ran for this long before it was last resumed, at the time `since`. -/
  | playing (ran since : τ)

namespace Stopwatch

variable {τ : Type} {m : Type → Type} [Monad m]

/-- Lets a paused stopwatch play. -/
def resume (clock : m τ) : Stopwatch τ → m (Stopwatch τ)
  | .playing ran since => pure (.playing ran since)
  | .paused ran => do return .playing ran (← clock)

/-- A stopwatch that has run for the time `zero` and plays. -/
def new (zero : τ) (clock : m τ) : m (Stopwatch τ) := (paused zero).resume clock

variable [Add τ] [Sub τ]

def pause (clock : m τ) : Stopwatch τ → m (Stopwatch τ)
  | .paused ran => pure (.paused ran)
  | .playing ran since => do return .paused (ran + (← clock) - since)

/-- How long a stopwatch has been playing in all. -/
def measure (clock : m τ) : Stopwatch τ → m τ
  | .paused ran => pure ran
  | .playing ran since => do return ran + (← clock) - since

end Stopwatch

end SummaryInlining

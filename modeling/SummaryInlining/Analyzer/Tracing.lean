import SummaryInlining.Analyzer
import SummaryInlining.Trace.Recorder

/-!
# The trace of an analysis

An abstractor that can reach a recorder may record a branch for every function that it abstracts,
so that whatever it records on the way stands inside this branch. `Abstractor.recorded` wraps an
abstractor in this way; its warnings and its outcome are those of the abstractor it wraps.
-/

set_option autoImplicit false

namespace SummaryInlining

/-- The abstractor that records the abstraction of each function as a branch, which ends whether
or not the abstraction succeeds. -/
def Abstractor.recorded {m : Type → Type} [Monad m] [MonadStateOf Recorder m] {F ε : Type}
    (abstractor : Abstractor m F ε) : Abstractor m F ε where
  nameOf := abstractor.nameOf
  abstract types f := do
    modify (·.start (.ofWords ["abstract", abstractor.nameOf f]))
    let abstracted ← abstractor.abstract types f
    modify Recorder.close
    return abstracted

end SummaryInlining

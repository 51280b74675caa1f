import SummaryInlining.Expansion.Instantiation
import SummaryInlining.Term.Text
import SummaryInlining.Trace.Recorder

/-!
# The trace of an instantiation

What happens during an instantiation is logged in its session, so that the instantiation itself
does not depend on whether it is traced. Recording the log afterwards yields a trace that has the
shape of the tree of calls: a branch for every function that was expanded, and events for calls
that were not expanded and for returned values.
-/

set_option autoImplicit false

namespace SummaryInlining

/-- Records one event of an instantiation. -/
def Event.record (r : Recorder) : Event → Recorder
  | .unknownRoot name =>
    Id.run (r.mark (.ofWords ["no summary for root function", name]) none)
  | .enterRoot name => r.start (.ofWords ["instantiate", name])
  | .enterCallee name => r.start (.ofWords ["expand", name])
  | .unknownCallee name => Id.run (r.mark (.ofWords ["opaque call to", name]) none)
  | .recursiveCallee name =>
    Id.run (r.mark (.ofWords ["recursive call to", name, "is not expanded"]) none)
  | .returns value => Id.run (r.mark (.text "returns") (some (pure value.text)))
  | .leave => r.close

/-- Records the events of a session, in order. -/
def Session.record (session : Session) (r : Recorder) : Recorder :=
  session.events.foldl Event.record r

end SummaryInlining

import SchedulingLogic.Identifier
import SchedulingLogic.TimePoint

/-!
# Intervals

A named activity whose start and finish are time points.  It carries identity only;
the instants of its ends are kept by a schedule.
-/

namespace SchedulingLogic

structure Interval where
  id : String
  name : String
  deriving DecidableEq

namespace Interval

def start (x : Interval) : TimePoint := ⟨x.id, x.name, .start⟩

def finish (x : Interval) : TimePoint := ⟨x.id, x.name, .finish⟩

/-- An interval under a fresh identifier, and the generator for the next one. -/
def fresh {γ : Type} [RandomGen γ] (name : String) (g : γ) : Interval × γ :=
  let (id, g) := Identifier.fresh g
  (⟨id, name⟩, g)

end Interval

end SchedulingLogic

/-!
# Faults

The ways in which building or evaluating an expression can fail, and their wording.
-/

namespace SchedulingLogic

inductive Fault where
  /-- The schedule has no instant for the point with this text. -/
  | unassigned (point : String)
  | typeMismatch (node expected found : String)
  | arityMismatch (expected found : Nat)
  deriving DecidableEq

namespace Fault

def message : Fault → String
  | unassigned point => "Time point has no assigned value: " ++ point
  | typeMismatch node expected found =>
      "Type mismatch in " ++ node ++ ": expected " ++ expected ++ ", found " ++ found
  | arityMismatch expected found =>
      "Wrong number of arguments: expected " ++ expected.repr ++ ", found " ++ found.repr

end Fault

end SchedulingLogic

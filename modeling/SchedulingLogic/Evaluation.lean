import SchedulingLogic.Relation.Basic
import SchedulingLogic.Schedule
import SchedulingLogic.Trace

/-!
# Evaluation

Expressions are evaluated from left to right, operands first.  The type of an operand
is checked as soon as it has a value, and combinators look at all of their operands,
so the first fault in this order decides the outcome.
-/

namespace SchedulingLogic

namespace Value

/-- The integer that `node` needs here. -/
def expectInt (node : String) : Value → Traced Int64
  | int n => pure n
  | v => .fail (.typeMismatch node "integer" v.typeName)

/-- The truth value that `node` needs here. -/
def expectBool (node : String) : Value → Traced Bool
  | bool b => pure b
  | v => .fail (.typeMismatch node "boolean" v.typeName)

@[simp] theorem expectInt_int (node : String) (n : Int64) : expectInt node (int n) = pure n := rfl

@[simp] theorem expectInt_bool (node : String) (b : Bool) :
    expectInt node (bool b) = .fail (.typeMismatch node "integer" "boolean") := rfl

@[simp] theorem expectBool_bool (node : String) (b : Bool) :
    expectBool node (bool b) = pure b := rfl

@[simp] theorem expectBool_int (node : String) (n : Int64) :
    expectBool node (int n) = .fail (.typeMismatch node "boolean" "integer") := rfl

end Value

namespace TimePoint

def evaluate (s : Schedule) (p : TimePoint) : Traced Value :=
  match s.get? p with
  | some n => pure (.int n)
  | none => .fail (.unassigned p.text)

end TimePoint

namespace Relation.Kind

/-- Compares two integers and records the comparison. -/
def compare (k : Kind) (delay first second : Int64) : Traced Value := do
  let result := k.check delay first second
  .record (.compared k first second delay result)
  return .bool result

end Relation.Kind

namespace Expr

mutual

/-- The value of an expression, with the relations compared on the way. -/
def run (s : Schedule) : Expr → Traced Value
  | constant n => pure (.int n)
  | timePoint p => p.evaluate s
  | relation k a b delay => do
      let first ← run s a >>= Value.expectInt k.name
      let second ← run s b >>= Value.expectInt k.name
      k.compare delay first second
  | not a => do
      let b ← run s a >>= Value.expectBool "Not"
      return .bool !b
  | and cs => do
      let bs ← runEach s "And" cs
      return .bool (bs.all id)
  | or cs => do
      let bs ← runEach s "Or" cs
      return .bool (bs.any id)

/-- The truth values of all operands of `node`. -/
def runEach (s : Schedule) (node : String) : List Expr → Traced (List Bool)
  | [] => pure []
  | c :: cs => do
      let b ← run s c >>= Value.expectBool node
      let bs ← runEach s node cs
      return b :: bs

end

/-- The value of an expression under a schedule.  A fault is recorded at the end. -/
def evaluate (e : Expr) (s : Schedule) : Traced Value := (e.run s).reportFailure

def isSatisfied (e : Expr) (s : Schedule) : Traced Bool :=
  e.evaluate s >>= Value.expectBool "expression"

theorem outcome_evaluate (e : Expr) (s : Schedule) :
    (e.evaluate s).outcome = (e.run s).outcome :=
  Traced.outcome_reportFailure _

theorem runEach_eq_mapM (s : Schedule) (node : String) (cs : List Expr) :
    runEach s node cs = cs.mapM fun c => run s c >>= Value.expectBool node := by
  induction cs with
  | nil => rfl
  | cons c cs ih => simp [runEach, List.mapM_cons, ih]

end Expr

end SchedulingLogic

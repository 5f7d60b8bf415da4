import SchedulingLogic.Expr.Basic
import SchedulingLogic.Fault

/-!
# Temporal relations

A relation is the data of a relation node: its kind, its two operands and its delay.
`toExpr` and `Expr.relation?` go between the two.
-/

namespace SchedulingLogic

structure Relation where
  kind : Relation.Kind
  first : Expr
  second : Expr
  delay : Int64
  deriving DecidableEq

namespace Relation

def arity : Nat := 2

/-- `first + delay <= second` -/
def precedence (first second : Expr) (delay : Int64) : Relation :=
  ⟨.precedence, first, second, delay⟩

/-- `first + delay == second` -/
def synchronization (first second : Expr) (delay : Int64) : Relation :=
  ⟨.synchronization, first, second, delay⟩

def args (r : Relation) : List Expr := [r.first, r.second]

/-- A relation over a list of operands, which must be two. -/
def ofArgs (kind : Kind) (args : List Expr) (delay : Int64) : Except Fault Relation :=
  match args with
  | [first, second] => .ok ⟨kind, first, second, delay⟩
  | _ => .error (.arityMismatch arity args.length)

/-- The relation of the same kind and delay between other operands. -/
def withArgs (r : Relation) (first second : Expr) : Relation := { r with first, second }

/-- Whether the relation holds when its operands have these values. -/
def check (r : Relation) (first second : Int64) : Bool := r.kind.check r.delay first second

/-- The text of the relation when its operands have these texts. -/
def phrase (r : Relation) (first second : String) : String :=
  r.kind.phrase r.delay first second

def toExpr (r : Relation) : Expr := .relation r.kind r.first r.second r.delay

instance : Coe Relation Expr := ⟨toExpr⟩

theorem ofArgs_args (r : Relation) : ofArgs r.kind r.args r.delay = .ok r := rfl

theorem withArgs_self (r : Relation) : r.withArgs r.first r.second = r := rfl

end Relation

namespace Expr

def relation? : Expr → Option Relation
  | relation k a b d => some ⟨k, a, b, d⟩
  | _ => none

@[simp] theorem args_toExpr (r : Relation) : r.toExpr.args = r.args := rfl

@[simp] theorem relation?_toExpr (r : Relation) : r.toExpr.relation? = some r := rfl

theorem relation?_eq_some_iff {e : Expr} {r : Relation} :
    e.relation? = some r ↔ e = r.toExpr := by
  cases e <;> cases r <;> simp [relation?, Relation.toExpr]

end Expr

namespace TimePoint

/-- `p + delay <= other` -/
def before (p : TimePoint) (other : Expr) (delay : Int64) : Relation :=
  .precedence p other delay

/-- `other + delay <= p` -/
def after (p : TimePoint) (other : Expr) (delay : Int64) : Relation :=
  .precedence other p delay

/-- `p + delay == other` -/
def coincides (p : TimePoint) (other : Expr) (delay : Int64) : Relation :=
  .synchronization p other delay

end TimePoint

end SchedulingLogic

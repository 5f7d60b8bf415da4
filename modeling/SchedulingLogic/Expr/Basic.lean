import SchedulingLogic.Relation.Kind
import SchedulingLogic.TimePoint

/-!
# Scheduling expressions

Integer leaves, temporal relations over two operands, and boolean combinators of
any width.  `args` lists the operands of a node, and `inductionOn` is induction over
it: it treats every kind of node alike.
-/

namespace SchedulingLogic

inductive Expr where
  | constant (value : Int64)
  | timePoint (point : TimePoint)
  | relation (kind : Relation.Kind) (first second : Expr) (delay : Int64)
  | not (operand : Expr)
  | and (operands : List Expr)
  | or (operands : List Expr)

namespace Expr

instance : Inhabited Expr := ⟨constant 0⟩

instance : Coe Int64 Expr := ⟨constant⟩

instance : Coe TimePoint Expr := ⟨timePoint⟩

/-- The operands of the root, in order.  Leaves have none. -/
def args : Expr → List Expr
  | constant _ | timePoint _ => []
  | relation _ a b _ => [a, b]
  | not c => [c]
  | and cs | or cs => cs

def isLeaf : Expr → Bool
  | constant _ | timePoint _ => true
  | relation .. | not _ | and _ | or _ => false

/-- Whether the root is a relation or a combinator, whose value is a truth value. -/
def isBoolean : Expr → Bool
  | constant _ | timePoint _ => false
  | relation .. | not _ | and _ | or _ => true

def point? : Expr → Option TimePoint
  | timePoint p => some p
  | _ => none

theorem isBoolean_eq_not_isLeaf (e : Expr) : e.isBoolean = !e.isLeaf := by
  cases e <;> rfl

theorem args_eq_nil_of_isLeaf {e : Expr} (h : e.isLeaf = true) : e.args = [] := by
  cases e <;> simp_all [isLeaf, args]

theorem sizeOf_lt_of_mem_args {c e : Expr} (h : c ∈ e.args) : sizeOf c < sizeOf e := by
  cases e with
  | constant _ => simp [args] at h
  | timePoint _ => simp [args] at h
  | relation k a b d =>
      have hc : c = a ∨ c = b := by simpa [args] using h
      rcases hc with rfl | rfl <;> simp <;> omega
  | not a =>
      have hc : c = a := by simpa [args] using h
      subst hc
      simp
  | and cs =>
      have hc : sizeOf c < sizeOf cs := List.sizeOf_lt_of_mem h
      simp
      omega
  | or cs =>
      have hc : sizeOf c < sizeOf cs := List.sizeOf_lt_of_mem h
      simp
      omega

/-- What holds of a node whenever it holds of all its operands holds of every expression. -/
@[elab_as_elim]
theorem inductionOn {motive : Expr → Prop}
    (step : ∀ e, (∀ c ∈ e.args, motive c) → motive e) (e : Expr) : motive e :=
  step e fun c _ => inductionOn step c
termination_by sizeOf e
decreasing_by exact sizeOf_lt_of_mem_args ‹_›

mutual

def decEq : (a b : Expr) → Decidable (a = b)
  | constant m, constant n =>
      if h : m = n then .isTrue (by rw [h]) else .isFalse (by simp [h])
  | timePoint p, timePoint q =>
      if h : p = q then .isTrue (by rw [h]) else .isFalse (by simp [h])
  | relation k a b d, relation l a' b' e =>
      if h : k = l ∧ d = e then
        match decEq a a' with
        | .isTrue ha =>
            match decEq b b' with
            | .isTrue hb => .isTrue (by rw [h.1, h.2, ha, hb])
            | .isFalse hb => .isFalse (by simp [hb])
        | .isFalse ha => .isFalse (by simp [ha])
      else .isFalse (by simp; intro hk _ _ hd; exact h ⟨hk, hd⟩)
  | not a, not b =>
      match decEq a b with
      | .isTrue h => .isTrue (by rw [h])
      | .isFalse h => .isFalse (by simp [h])
  | and as, and bs | or as, or bs =>
      match decEqList as bs with
      | .isTrue h => .isTrue (by rw [h])
      | .isFalse h => .isFalse (by simp [h])
  | constant _, timePoint _ | constant _, relation .. | constant _, not _
  | constant _, and _ | constant _, or _ | timePoint _, constant _
  | timePoint _, relation .. | timePoint _, not _ | timePoint _, and _
  | timePoint _, or _ | relation .., constant _ | relation .., timePoint _
  | relation .., not _ | relation .., and _ | relation .., or _
  | not _, constant _ | not _, timePoint _ | not _, relation .. | not _, and _
  | not _, or _ | and _, constant _ | and _, timePoint _ | and _, relation ..
  | and _, not _ | and _, or _ | or _, constant _ | or _, timePoint _
  | or _, relation .. | or _, not _ | or _, and _ => .isFalse (by simp)

def decEqList : (as bs : List Expr) → Decidable (as = bs)
  | [], [] => .isTrue rfl
  | [], _ :: _ | _ :: _, [] => .isFalse (by simp)
  | a :: as, b :: bs =>
      match decEq a b with
      | .isTrue h =>
          match decEqList as bs with
          | .isTrue hs => .isTrue (by rw [h, hs])
          | .isFalse hs => .isFalse (by simp [hs])
      | .isFalse h => .isFalse (by simp [h])

end

instance : DecidableEq Expr := decEq

instance : Complement Expr := ⟨not⟩

/-- The conjunction of two expressions.  A left operand that is a conjunction already
is extended instead of nested. -/
def conjoin : Expr → Expr → Expr
  | and cs, b => and (cs ++ [b])
  | a, b => and [a, b]

/-- The disjunction of two expressions.  A left operand that is a disjunction already
is extended instead of nested. -/
def disjoin : Expr → Expr → Expr
  | or cs, b => or (cs ++ [b])
  | a, b => or [a, b]

instance : AndOp Expr := ⟨conjoin⟩

instance : OrOp Expr := ⟨disjoin⟩

end Expr

end SchedulingLogic

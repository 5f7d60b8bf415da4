import SchedulingLogic.Expr.Traversal
import SchedulingLogic.Proofs.PrefixCode

/-!
# Expressions from their nodes

A record says of a node what it is and how many operands it has, but not which.  The records
of all nodes in pre-order tell which expression it is: the operands of a node follow it, and
where one of them ends the next one begins.
-/

namespace SchedulingLogic

namespace Expr

/-- What a node is, apart from its operands. -/
inductive Label where
  | constant (value : Int64)
  | timePoint (point : TimePoint)
  | relation (kind : Relation.Kind) (delay : Int64)
  | not
  | and
  | or
  deriving DecidableEq

def label : Expr → Label
  | constant n => .constant n
  | timePoint p => .timePoint p
  | relation k _ _ delay => .relation k delay
  | not _ => .not
  | and _ => .and
  | or _ => .or

structure Record where
  label : Label
  operandCount : Nat
  deriving DecidableEq

def record (e : Expr) : Record := ⟨e.label, e.args.length⟩

def records (e : Expr) : List Record := e.preorder.map record

theorem records_eq (e : Expr) : e.records = e.record :: e.args.flatMap records := by
  rw [records, preorder_eq, List.map_cons, List.map_flatMap]
  rfl

theorem eq_of_label_eq_of_args_eq {e e' : Expr} (hlabel : e.label = e'.label)
    (hargs : e.args = e'.args) : e = e' := by
  cases e <;> cases e' <;> simp_all [label, args]

/-- The records of an expression end where they end, whatever follows. -/
theorem legible_records (e : Expr) :
    Legible records id (fun _ => True) (fun _ => True) e := by
  induction e using inductionOn with
  | step e ih =>
      intro y rest rest' _ _ _ htext
      rw [records_eq, records_eq y] at htext
      obtain ⟨hrecord, htail⟩ := List.cons.inj htext
      have hlabel : e.label = y.label := congrArg Record.label hrecord
      have hlength : e.args.length = y.args.length := congrArg Record.operandCount hrecord
      obtain ⟨hargs, hr⟩ := Legible.flatMap_of_length_eq ih
        ⟨hlength.symm, fun _ _ => trivial⟩ trivial trivial htail
      simp only [List.map_id] at hargs
      exact ⟨eq_of_label_eq_of_args_eq hlabel hargs, hr⟩

/-- The pre-order records lose nothing of an expression. -/
theorem map_record_preorder_inj {e₁ e₂ : Expr} :
    e₁.preorder.map record = e₂.preorder.map record ↔ e₁ = e₂ := by
  constructor
  · intro h
    have htext : e₁.records ++ [] = e₂.records ++ [] := congrArg (· ++ []) h
    exact (legible_records e₁ trivial trivial trivial htext).1
  · rintro rfl
    rfl

end Expr

end SchedulingLogic

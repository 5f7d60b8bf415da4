import SchedulingLogic.Proofs.Events
import SchedulingLogic.Proofs.Itinerary

/-!
# Labels

A schedule keeps instants under keys, so a run sees no labels.  Giving new labels to the
points of an expression, even different ones to the same point at different places, changes
nothing but the text of a missing point.  Equality of points is finer: it tells points with
one key apart when their labels differ.
-/

namespace SchedulingLogic

/-! ## Faults without their points -/

namespace Traced

variable {α β : Type}

end Traced

/-! ## New labels -/

namespace Expr

variable (f : Nat → TimePoint → String)

mutual

/-- Relabels the points, which are counted from left to right, the leftmost one as the `i`-th. -/
def relabelFrom (i : Nat) : Expr → Expr
  | constant n => constant n
  | timePoint p => timePoint (p.relabel (f i p))
  | relation k a b delay =>
      relation k (relabelFrom i a) (relabelFrom (i + a.timePoints.length) b) delay
  | not a => not (relabelFrom i a)
  | and cs => and (relabelEachFrom i cs)
  | or cs => or (relabelEachFrom i cs)

def relabelEachFrom (i : Nat) : List Expr → List Expr
  | [] => []
  | c :: cs => relabelFrom i c :: relabelEachFrom (i + c.timePoints.length) cs

end

/-- Gives each point a new label, depending on its place among the points too. -/
def relabel (e : Expr) : Expr := e.relabelFrom f 0

variable {f} {s : Schedule}

end Expr

/-! ## Equality of points -/

namespace TimePoint

variable {p q : TimePoint}

theorem eq_iff_key_eq_and_label_eq : p = q ↔ p.key = q.key ∧ p.label = q.label := by
  cases p
  cases q
  simp only [key_eq_iff, mk.injEq]
  constructor
  · rintro ⟨hinterval, hlabel, hendpoint⟩
    exact ⟨⟨hinterval, hendpoint⟩, hlabel⟩
  · rintro ⟨⟨hinterval, hendpoint⟩, hlabel⟩
    exact ⟨hinterval, hlabel, hendpoint⟩

/-- Points have one key exactly when setting one of them always sets the other. -/
theorem key_eq_iff_get?_set :
    p.key = q.key ↔ ∀ (s : Schedule) (v : Int64), (s.set p v).2.get? q = some v := by
  constructor
  · intro h s v
    rw [Schedule.get?_set, if_pos h.symm]
  · intro h
    have hset := h .empty 0
    rw [Schedule.get?_set] at hset
    by_cases hkey : q.key = p.key
    · exact hkey.symm
    · simp [if_neg hkey] at hset

/-- Equality is the identity under which instants are kept unless the labels alone differ.
Leaves and relations are compared in the same way. -/
theorem eq_iff_key_eq_iff (p q : TimePoint) :
    ((p = q ↔ p.key = q.key) ↔ (p.key = q.key → p.label = q.label)) ∧
      (p.key = q.key ↔ ∀ (s : Schedule) (v : Int64), (s.set p v).2.get? q = some v) ∧
      (Expr.timePoint p = Expr.timePoint q ↔ p = q) ∧
      ∀ (k : Relation.Kind) (e : Expr) (delay : Int64),
        (Expr.relation k p e delay = Expr.relation k q e delay ↔ p = q) ∧
          (Expr.relation k e p delay = Expr.relation k e q delay ↔ p = q) := by
  refine ⟨?_, key_eq_iff_get?_set, ?_, ?_⟩
  · rw [eq_iff_key_eq_and_label_eq, and_iff_left_iff_imp]
  · rw [Expr.timePoint.injEq]
  · intro k e delay
    simp only [Expr.relation.injEq, Expr.timePoint.injEq, true_and, and_true, and_self]

/-- A point and the same point under another label share their instant, and are not equal. -/
theorem key_eq_and_ne_of_other_label :
    let p : TimePoint := ⟨"iv", "x", .start⟩
    let q : TimePoint := ⟨"iv", "other", .start⟩
    (∀ (s : Schedule) (v : Int64), (s.set p v).2.get? q = some v) ∧ p.key = q.key ∧
      ¬ (p = q ↔ p.key = q.key) ∧ Expr.timePoint p ≠ Expr.timePoint q ∧
      Expr.relation .precedence p q 0 ≠ Expr.relation .precedence q p 0 :=
  ⟨key_eq_iff_get?_set.mp rfl, rfl, by decide, by decide, by decide⟩

end TimePoint

end SchedulingLogic

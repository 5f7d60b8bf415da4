import Mathlib.Algebra.Ring.Nat
import Mathlib.Data.List.Basic
import SchedulingLogic.Expr.Traversal

/-!
# The layout of the pre-order list

The pre-order list of an expression has the list of each node in it as a slice, which starts at
the node and is as long as the node has nodes below it and itself.  The operands of a node start
right after it, one behind the other.
-/

namespace SchedulingLogic

/-- An entry of a concatenation is an entry of one of the parts. -/
theorem exists_of_getElem?_flatMap {α β : Type} {f : α → List β} {xs : List α} {i : Nat} {y : β}
    (h : (xs.flatMap f)[i]? = some y) :
    ∃ before x after k, xs = before ++ x :: after ∧ (f x)[k]? = some y ∧
      (before.flatMap f).length + k = i := by
  induction xs generalizing i with
  | nil => simp at h
  | cons x xs ih =>
      rw [List.flatMap_cons] at h
      by_cases hi : i < (f x).length
      · rw [List.getElem?_append_left hi] at h
        exact ⟨[], x, xs, i, rfl, h, Nat.zero_add i⟩
      · have hle : (f x).length ≤ i := Nat.le_of_not_lt hi
        rw [List.getElem?_append_right hle] at h
        obtain ⟨before, z, after, k, rfl, hk, hlength⟩ := ih h
        refine ⟨x :: before, z, after, k, rfl, hk, ?_⟩
        rw [List.flatMap_cons, List.length_append]
        omega

namespace Expr

theorem nodeCount_eq_sum (e : Expr) : e.nodeCount = 1 + (e.args.map nodeCount).sum := nodeCount_eq e

theorem length_preorder (e : Expr) : e.preorder.length = e.nodeCount := by
  induction e using inductionOn with
  | step e ih =>
      rw [preorder_eq, nodeCount_eq_sum, List.length_cons, List.length_flatMap,
        List.map_congr_left ih, Nat.add_comm]

theorem length_flatMap_preorder (cs : List Expr) :
    (cs.flatMap preorder).length = (cs.map nodeCount).sum := by
  simp only [List.length_flatMap, length_preorder]

theorem sum_operandCount_flatMap {cs : List Expr}
    (h : ∀ c ∈ cs, (c.preorder.map fun x => x.args.length).sum + 1 = c.nodeCount) :
    ((cs.flatMap preorder).map fun x => x.args.length).sum + cs.length =
      (cs.map nodeCount).sum := by
  induction cs with
  | nil => rfl
  | cons c cs ih =>
      have hc := h c List.mem_cons_self
      have hcs := ih fun c' hc' => h c' (List.mem_cons_of_mem c hc')
      simp only [List.flatMap_cons, List.map_append, List.sum_append, List.map_cons,
        List.sum_cons, List.length_cons]
      omega

/-- Every node but the root is an operand of one node. -/
theorem sum_operandCount_add_one (e : Expr) :
    (e.preorder.map fun x => x.args.length).sum + 1 = e.nodeCount := by
  induction e using inductionOn with
  | step e ih =>
      have hargs := sum_operandCount_flatMap ih
      rw [preorder_eq, nodeCount_eq_sum, List.map_cons, List.sum_cons]
      omega

/-- From an entry on, the list goes through the nodes below the entry first. -/
theorem exists_append_of_getElem?_preorder {e x : Expr} {i : Nat} (h : e.preorder[i]? = some x) :
    ∃ before after, e.preorder = before ++ (x.preorder ++ after) ∧ before.length = i := by
  induction e using inductionOn generalizing i with
  | step e ih =>
      cases i with
      | zero =>
          rw [preorder_eq] at h
          obtain rfl : e = x := Option.some.inj h
          exact ⟨[], [], (List.append_nil _).symm, rfl⟩
      | succ i =>
          rw [preorder_eq, List.getElem?_cons_succ] at h
          obtain ⟨cs, c, cs', k, hargs, hk, hlength⟩ := exists_of_getElem?_flatMap h
          have hc : c ∈ e.args := by simp [hargs]
          obtain ⟨before, after, hpreorder, hbefore⟩ := ih c hc hk
          refine ⟨e :: (cs.flatMap preorder ++ before), after ++ cs'.flatMap preorder, ?_, ?_⟩
          · rw [preorder_eq, hargs, List.flatMap_append, List.flatMap_cons, hpreorder]
            simp only [List.cons_append, List.append_assoc]
          · rw [List.length_cons, List.length_append, hbefore, hlength]

/-- An operand starts behind its node and the nodes of the operands before it. -/
theorem exists_append_of_getElem?_args {e c : Expr} {j : Nat} (h : e.args[j]? = some c) :
    ∃ before after, e.preorder = before ++ (c.preorder ++ after) ∧
      before.length = 1 + ((e.args.take j).map nodeCount).sum := by
  obtain ⟨hj, rfl⟩ := List.getElem?_eq_some_iff.mp h
  refine ⟨e :: (e.args.take j).flatMap preorder, (e.args.drop (j + 1)).flatMap preorder, ?_, ?_⟩
  · have hargs : e.args = e.args.take j ++ e.args[j] :: e.args.drop (j + 1) := by simp
    rw [preorder_eq, List.cons_append, ← List.flatMap_cons, ← List.flatMap_append, ← hargs]
  · rw [List.length_cons, length_flatMap_preorder, Nat.add_comm]

theorem getElem?_length_append_preorder (before after : List Expr) (e : Expr) :
    (before ++ (e.preorder ++ after))[before.length]? = some e := by
  rw [List.getElem?_append_right (Nat.le_refl _), Nat.sub_self, preorder_eq]
  rfl

theorem take_drop_preorder {e x : Expr} {i : Nat} (h : e.preorder[i]? = some x) :
    (e.preorder.drop i).take x.nodeCount = x.preorder := by
  obtain ⟨before, after, hpreorder, rfl⟩ := exists_append_of_getElem?_preorder h
  rw [hpreorder, List.drop_left, ← length_preorder, List.take_left]

theorem getElem?_preorder_operand {e x c : Expr} {i j : Nat} (hx : e.preorder[i]? = some x)
    (hc : x.args[j]? = some c) :
    e.preorder[i + 1 + ((x.args.take j).map nodeCount).sum]? = some c := by
  obtain ⟨before, after, he, rfl⟩ := exists_append_of_getElem?_preorder hx
  obtain ⟨before', after', hx', hlength⟩ := exists_append_of_getElem?_args hc
  have hsplit : e.preorder = (before ++ before') ++ (c.preorder ++ (after' ++ after)) := by
    rw [he, hx']
    simp only [List.append_assoc]
  rw [hsplit, Nat.add_assoc, ← hlength, ← List.length_append]
  exact getElem?_length_append_preorder _ _ c

/-- Nodes that can be built again from what is collected of them are found in pre-order. -/
theorem map_filterMap_preorder {α : Type} {collect : Expr → Option α} {back : α → Expr}
    {p : Expr → Bool} (h : ∀ x, (collect x).map back = Option.guard p x) (e : Expr) :
    (e.preorder.filterMap collect).map back = e.preorder.filter p := by
  rw [List.map_filterMap, ← List.filterMap_eq_filter]
  exact List.filterMap_congr fun x _ => h x

/-- The pre-order list has as many entries as there are nodes and one more than there are
operands.  Each entry begins its own pre-order list there, with its operands behind it.  The
relations and the points are those entries, in this order. -/
theorem preorder_layout (e : Expr) :
    e.preorder.length = e.nodeCount ∧
      (∀ i : Fin e.preorder.length,
        let x := e.preorder.get i
        (e.preorder.drop i).take x.nodeCount = x.preorder ∧
          ∀ j : Fin x.args.length,
            e.preorder[i + 1 + ((x.args.take j).map nodeCount).sum]? = some (x.args.get j)) ∧
      (e.preorder.map fun x => x.args.length).sum = e.nodeCount - 1 ∧
      (e.relations.map Relation.toExpr = e.preorder.filter fun x => x matches relation ..) ∧
      e.timePoints.map timePoint = e.preorder.filter fun x => x matches timePoint _ := by
  refine ⟨length_preorder e, ?_, ?_, ?_, ?_⟩
  · intro i x
    have hx : e.preorder[i.val]? = some x := List.getElem?_eq_getElem i.isLt
    refine ⟨take_drop_preorder hx, ?_⟩
    intro j
    exact getElem?_preorder_operand hx (List.getElem?_eq_getElem j.isLt)
  · exact Nat.eq_sub_of_add_eq (sum_operandCount_add_one e)
  · exact map_filterMap_preorder (fun x => by cases x <;> rfl) e
  · exact map_filterMap_preorder (fun x => by cases x <;> rfl) e

end Expr

end SchedulingLogic

import Mathlib.Algebra.Order.BigOperators.Group.List
import Mathlib.Algebra.Order.Group.Nat
import Mathlib.Data.List.Chain
import Mathlib.Data.List.MinMax
import Mathlib.Order.Nat
import Mathlib.Tactic.TFAE
import SchedulingLogic.Proofs.Preorder.Layout

/-!
# Depth and leaves

The depth of an expression is the length of a longest way down from its root, on which each node
is an operand of the one before.  A way down stops at once where there are no operands.  Leaves
have none, but neither has a combinator over an empty list.
-/

namespace SchedulingLogic

theorem foldr_max_le_iff {ns : List Nat} {n : Nat} : ns.foldr max 0 ≤ n ↔ ∀ m ∈ ns, m ≤ n := by
  constructor
  · intro h m hm
    exact (List.le_max_of_le hm (Nat.le_refl m)).trans h
  · intro h
    exact List.max_le_of_forall_le ns n h

namespace Expr

variable {e c : Expr} {below : List Expr} {n : Nat}

/-- The nodes `below` lead down from `e`: each is an operand of the one before it. -/
def IsDescent (e : Expr) (below : List Expr) : Prop :=
  (e :: below).IsChain fun x y => y ∈ x.args

instance (e : Expr) (below : List Expr) : Decidable (e.IsDescent below) :=
  inferInstanceAs (Decidable ((e :: below).IsChain fun x y => y ∈ x.args))

theorem isDescent_nil (e : Expr) : e.IsDescent [] := List.isChain_singleton e

theorem isDescent_cons_iff : e.IsDescent (c :: below) ↔ c ∈ e.args ∧ c.IsDescent below :=
  List.isChain_cons_cons

/-! ## Depth -/

theorem depth_pos (e : Expr) : 0 < e.depth := by
  rw [depth_eq]
  exact Nat.lt_add_right _ Nat.one_pos

theorem depth_le_add_one_iff : e.depth ≤ n + 1 ↔ ∀ c ∈ e.args, c.depth ≤ n := by
  rw [depth_eq, Nat.add_comm 1, Nat.add_le_add_iff_right, foldr_max_le_iff, List.forall_mem_map]

theorem add_one_lt_depth_iff : n + 1 < e.depth ↔ ∃ c ∈ e.args, n < c.depth := by
  simp only [← Nat.not_le, depth_le_add_one_iff, not_forall, exists_prop]

theorem depth_lt_of_mem_args (hc : c ∈ e.args) : c.depth < e.depth := by
  obtain ⟨d, hd⟩ := Nat.exists_eq_add_one_of_ne_zero c.depth_pos.ne'
  rw [hd, add_one_lt_depth_iff]
  exact ⟨c, hc, hd ▸ Nat.lt_succ_self d⟩

/-- Above its operands a node is one deeper than the deepest of them. -/
theorem exists_isGreatest_depth_args (h : e.args ≠ []) :
    ∃ d, IsGreatest {d | ∃ c ∈ e.args, c.depth = d} d ∧ e.depth = 1 + d := by
  refine ⟨(e.args.map depth).foldr max 0, ⟨?_, ?_⟩, depth_eq e⟩
  · have hmap : e.args.map depth ≠ [] := by simpa using h
    exact List.mem_map.mp (List.maximum_mem (List.foldr_max_of_ne_nil hmap).symm)
  · rintro d ⟨c, hc, rfl⟩
    exact foldr_max_le_iff.mp (Nat.le_refl _) c.depth (List.mem_map_of_mem hc)

theorem lt_depth_iff_exists_descent :
    n < e.depth ↔ ∃ below, e.IsDescent below ∧ below.length = n := by
  -- By the length of the way: its second node is the root of a shorter one.
  induction n generalizing e with
  | zero => exact iff_of_true e.depth_pos ⟨[], e.isDescent_nil, rfl⟩
  | succ n ih =>
      rw [add_one_lt_depth_iff]
      constructor
      · rintro ⟨c, hc, hlt⟩
        obtain ⟨below, hbelow, rfl⟩ := ih.mp hlt
        exact ⟨c :: below, isDescent_cons_iff.mpr ⟨hc, hbelow⟩, List.length_cons⟩
      · rintro ⟨below, hdescent, hlength⟩
        obtain ⟨c, below, rfl⟩ := List.exists_cons_of_length_eq_add_one hlength
        obtain ⟨hc, hbelow⟩ := isDescent_cons_iff.mp hdescent
        exact ⟨c, hc, ih.mpr ⟨below, hbelow, Nat.succ.inj hlength⟩⟩

theorem le_depth_iff_exists_descent (hn : 1 ≤ n) :
    n ≤ e.depth ↔ ∃ below, e.IsDescent below ∧ (e :: below).length = n := by
  obtain ⟨k, rfl⟩ := Nat.exists_eq_add_of_le' hn
  simp only [List.length_cons, Nat.add_right_cancel_iff]
  exact lt_depth_iff_exists_descent

theorem isGreatest_depth (e : Expr) :
    IsGreatest {n | ∃ below, e.IsDescent below ∧ (e :: below).length = n} e.depth := by
  constructor
  · exact (le_depth_iff_exists_descent e.depth_pos).mp (Nat.le_refl _)
  · rintro n ⟨below, hdescent, rfl⟩
    exact (le_depth_iff_exists_descent (Nat.succ_pos _)).mpr ⟨below, hdescent, rfl⟩

theorem depth_le_nodeCount (e : Expr) : e.depth ≤ e.nodeCount := by
  induction e using inductionOn with
  | step e ih =>
      rw [nodeCount_eq_sum, Nat.add_comm, depth_le_add_one_iff]
      intro c hc
      calc
        c.depth ≤ c.nodeCount := ih c hc
        _ ≤ (e.args.map nodeCount).sum := List.le_sum_of_mem (List.mem_map_of_mem hc)

/-- The depth is the length of a longest way down.  Operands are less deep than their node, and
no way down has more nodes than there are. -/
theorem depth_longest_descent (e : Expr) :
    (∀ n, 1 ≤ n → (n ≤ e.depth ↔ ∃ below, e.IsDescent below ∧ (e :: below).length = n)) ∧
      IsGreatest {n | ∃ below, e.IsDescent below ∧ (e :: below).length = n} e.depth ∧
      (∀ c ∈ e.args, c.depth < e.depth) ∧ e.depth ≤ e.nodeCount := by
  refine ⟨?_, isGreatest_depth e, ?_, depth_le_nodeCount e⟩
  · intro n hn
    exact le_depth_iff_exists_descent hn
  · intro c hc
    exact depth_lt_of_mem_args hc

/-- There is a way down of four nodes, which passes an operand less deep, and none of five. -/
theorem depth_longest_descent_four :
    let a : Expr := and [or [], relation .precedence (constant 0) (constant 1) 2]
    let e : Expr := not a
    (1 ≤ 4 ∧ (4 ≤ e.depth ↔ ∃ below, e.IsDescent below ∧ (e :: below).length = 4)) ∧
      (a ∈ e.args ∧ a.depth < e.depth) ∧
      e.IsDescent [a, relation .precedence (constant 0) (constant 1) 2, constant 0] ∧
      ¬ ∃ below, e.IsDescent below ∧ (e :: below).length = 5 := by
  intro a e
  obtain ⟨hlength, _, hoperand, _⟩ := depth_longest_descent e
  have ha : a ∈ e.args := List.mem_cons_self
  refine ⟨⟨by decide, hlength 4 (by decide)⟩, ⟨ha, hoperand a ha⟩, by decide, ?_⟩
  rw [← hlength 5 (by decide)]
  decide

/-! ## Leaves -/

theorem depth_eq_one_iff : e.depth = 1 ↔ e.args = [] := by
  have hpos := e.depth_pos
  have hle : e.depth = 1 ↔ e.depth ≤ 0 + 1 := by omega
  rw [hle, depth_le_add_one_iff, List.eq_nil_iff_forall_not_mem]
  apply forall₂_congr
  intro c _
  exact iff_of_false (Nat.not_le_of_lt c.depth_pos) id

theorem nodeCount_eq_one_iff : e.nodeCount = 1 ↔ e.args = [] := by
  constructor
  · intro h
    have hle := e.depth_le_nodeCount
    exact depth_eq_one_iff.mp (Nat.le_antisymm (h ▸ hle) e.depth_pos)
  · intro h
    rw [nodeCount_eq_sum, h]
    rfl

theorem isLeaf_or_empty_iff : e.isLeaf = true ∨ e = and [] ∨ e = or [] ↔ e.args = [] := by
  cases e <;> simp [isLeaf, args]

theorem isLeaf_iff_args_eq_nil_iff :
    (e.isLeaf = true ↔ e.args = []) ↔ e ≠ and [] ∧ e ≠ or [] := by
  rw [← isLeaf_or_empty_iff, iff_self_or, ← not_or]
  cases e <;> simp [isLeaf]

/-- The nodes without operands are those of depth one, those that count one node, and the leaves
together with the combinators over no operands.  Leaves are all of them in an expression exactly
when it has no such combinator. -/
theorem operandless_notions (e : Expr) :
    (∀ x ∈ e.preorder, List.TFAE [x.args.length = 0, x.depth = 1, x.nodeCount = 1,
        x.isLeaf = true ∨ x = and [] ∨ x = or []]) ∧
      ((∀ x ∈ e.preorder, x.isLeaf = true ↔ x.args.length = 0) ↔
        and [] ∉ e.preorder ∧ or [] ∉ e.preorder) := by
  constructor
  · intro x _
    tfae_have 1 ↔ 2 := List.length_eq_zero_iff.trans depth_eq_one_iff.symm
    tfae_have 1 ↔ 3 := List.length_eq_zero_iff.trans nodeCount_eq_one_iff.symm
    tfae_have 1 ↔ 4 := List.length_eq_zero_iff.trans isLeaf_or_empty_iff.symm
    tfae_finish
  · simp only [List.length_eq_zero_iff, isLeaf_iff_args_eq_nil_iff]
    constructor
    · intro h
      exact ⟨fun hand => (h _ hand).1 rfl, fun hor => (h _ hor).2 rfl⟩
    · rintro ⟨hand, hor⟩ x hx
      exact ⟨fun heq => hand (heq ▸ hx), fun heq => hor (heq ▸ hx)⟩

/-- A leaf and a combinator without operands, both below the root. -/
theorem operandless_notions_below_root :
    let e : Expr := not (and [or [], constant 3])
    (or [] ∈ e.preorder ∧ List.TFAE [(or []).args.length = 0, (or []).depth = 1,
        (or []).nodeCount = 1, (or []).isLeaf = true ∨ or [] = and [] ∨ or [] = or []]) ∧
      (constant 3 ∈ e.preorder ∧ List.TFAE [(constant 3).args.length = 0, (constant 3).depth = 1,
        (constant 3).nodeCount = 1,
        (constant 3).isLeaf = true ∨ constant 3 = and [] ∨ constant 3 = or []]) ∧
      ¬ ∀ x ∈ e.preorder, x.isLeaf = true ↔ x.args.length = 0 := by
  intro e
  obtain ⟨hnotions, hleaves⟩ := operandless_notions e
  have hor : or [] ∈ e.preorder := by decide
  have hconstant : constant 3 ∈ e.preorder := by decide
  refine ⟨⟨hor, hnotions _ hor⟩, ⟨hconstant, hnotions _ hconstant⟩, ?_⟩
  exact fun h => (hleaves.mp h).2 hor

/-- An empty conjunction has no operands and is not a leaf. -/
theorem operandless_conjunction_not_isLeaf :
    let e : Expr := and []
    e ∈ e.preorder ∧ (e.args.length = 0 ∧ e.depth = 1 ∧ e.nodeCount = 1) ∧ e.isLeaf = false ∧
      ¬ List.TFAE [e.isLeaf = true, e.args.length = 0, e.depth = 1, e.nodeCount = 1] := by
  intro e
  refine ⟨mem_preorder_self e, by decide, rfl, ?_⟩
  intro h
  exact Bool.false_ne_true ((h.out 0 1).mpr rfl)

end Expr

end SchedulingLogic

import SchedulingLogic.Relation.Basic

/-!
# Traversal of expressions

`fold` combines the results of the operands of each node, from the leaves up, and
`fold_eq` is its only equation.  Depth, size and the pre-order list of nodes are
folds.
-/

namespace SchedulingLogic

namespace Expr

mutual

/-- Replaces each node by `f` of the node and the results of its operands. -/
def fold {α : Type} (f : Expr → List α → α) : Expr → α
  | constant n => f (constant n) []
  | timePoint p => f (timePoint p) []
  | relation k a b d => f (relation k a b d) [fold f a, fold f b]
  | not a => f (not a) [fold f a]
  | and cs => f (and cs) (foldEach f cs)
  | or cs => f (or cs) (foldEach f cs)

def foldEach {α : Type} (f : Expr → List α → α) : List Expr → List α
  | [] => []
  | c :: cs => fold f c :: foldEach f cs

end

theorem foldEach_eq_map {α : Type} (f : Expr → List α → α) (cs : List Expr) :
    foldEach f cs = cs.map (fold f) := by
  induction cs with
  | nil => rfl
  | cons c cs ih => simp [foldEach, ih]

theorem fold_eq {α : Type} (f : Expr → List α → α) (e : Expr) :
    e.fold f = f e (e.args.map (fold f)) := by
  cases e <;> simp [fold, args, foldEach_eq_map]

/-- The number of nodes on a longest path from the root to a leaf. -/
def depth (e : Expr) : Nat := e.fold fun _ depths => 1 + depths.foldr max 0

def nodeCount (e : Expr) : Nat := e.fold fun _ counts => 1 + counts.foldr (· + ·) 0

/-- All nodes, each before its operands, from left to right. -/
def preorder (e : Expr) : List Expr := e.fold fun node below => node :: below.flatten

/-- All relations in pre-order. -/
def relations (e : Expr) : List Relation := e.preorder.filterMap relation?

/-- All time points in pre-order, with repetitions. -/
def timePoints (e : Expr) : List TimePoint := e.preorder.filterMap point?

theorem depth_eq (e : Expr) : e.depth = 1 + (e.args.map depth).foldr max 0 := fold_eq _ e

theorem nodeCount_eq (e : Expr) :
    e.nodeCount = 1 + (e.args.map nodeCount).foldr (· + ·) 0 := fold_eq _ e

theorem preorder_eq (e : Expr) : e.preorder = e :: e.args.flatMap preorder := by
  rw [preorder, fold_eq, List.flatMap_def]
  rfl

theorem relations_eq (e : Expr) :
    e.relations = e.relation?.toList ++ e.args.flatMap relations := by
  rw [relations, preorder_eq, List.filterMap_cons, List.filterMap_flatMap]
  cases e.relation? <;> rfl

theorem timePoints_eq (e : Expr) :
    e.timePoints = e.point?.toList ++ e.args.flatMap timePoints := by
  rw [timePoints, preorder_eq, List.filterMap_cons, List.filterMap_flatMap]
  cases e.point? <;> rfl

theorem mem_timePoints_self (p : TimePoint) : p ∈ (timePoint p).timePoints := by
  rw [timePoints_eq]
  exact List.mem_cons_self

theorem mem_relations_self (r : Relation) : r ∈ r.toExpr.relations := by
  rw [relations_eq]
  exact List.mem_cons_self

theorem mem_relations_of_mem_args {c e : Expr} (hc : c ∈ e.args) {r : Relation}
    (hr : r ∈ c.relations) : r ∈ e.relations := by
  rw [relations_eq]
  exact List.mem_append_right _ (List.mem_flatMap.mpr ⟨c, hc, hr⟩)

theorem mem_timePoints_of_mem_args {c e : Expr} (hc : c ∈ e.args) {p : TimePoint}
    (hp : p ∈ c.timePoints) : p ∈ e.timePoints := by
  rw [timePoints_eq]
  exact List.mem_append_right _ (List.mem_flatMap.mpr ⟨c, hc, hp⟩)

theorem mem_preorder_self (e : Expr) : e ∈ e.preorder := by
  rw [preorder_eq]
  exact List.mem_cons_self

theorem mem_preorder_of_mem_args {c e x : Expr} (hc : c ∈ e.args) (hx : x ∈ c.preorder) :
    x ∈ e.preorder := by
  rw [preorder_eq]
  exact List.mem_cons_of_mem e (List.mem_flatMap.mpr ⟨c, hc, hx⟩)

end Expr

end SchedulingLogic

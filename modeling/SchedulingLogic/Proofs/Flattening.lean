import SchedulingLogic.Proofs.Depth

/-!
# Chained operators

An operator extends a left operand that is its own combinator already, and takes no right operand
apart.  Whatever a chain of one operator begins with, it is therefore the combinator over all that
is joined, each operand once and in order.
-/

namespace SchedulingLogic

/-- A combinator of any width, which an operator builds two operands at a time. -/
inductive Combinator where
  | conjunction
  | disjunction
  deriving DecidableEq

namespace Combinator

def make : Combinator → List Expr → Expr
  | conjunction => .and
  | disjunction => .or

def join : Combinator → Expr → Expr → Expr
  | conjunction, a, b => a &&& b
  | disjunction, a, b => a ||| b

/-- The operands that an expression stands for where it begins a chain. -/
def parts : Combinator → Expr → List Expr
  | conjunction, .and cs | disjunction, .or cs => cs
  | conjunction, e | disjunction, e => [e]

variable (m : Combinator)

@[simp] theorem args_make (cs : List Expr) : (m.make cs).args = cs := by
  cases m <;> rfl

theorem make_injective {cs ds : List Expr} (h : m.make cs = m.make ds) : cs = ds := by
  rw [← m.args_make cs, h, args_make]

@[simp] theorem parts_make (cs : List Expr) : m.parts (m.make cs) = cs := by
  cases m <;> rfl

theorem parts_of_forall_ne {e : Expr} (h : ∀ cs, e ≠ m.make cs) : m.parts e = [e] := by
  cases m with
  | conjunction =>
      cases e with
      | and cs => exact absurd rfl (h cs)
      | _ => rfl
  | disjunction =>
      cases e with
      | or cs => exact absurd rfl (h cs)
      | _ => rfl

/-- An operator looks at the shape of its left operand alone. -/
theorem join_eq (a b : Expr) : m.join a b = m.make (m.parts a ++ [b]) := by
  cases m <;> cases a <;> rfl

theorem foldl_join_make (cs xs : List Expr) :
    xs.foldl m.join (m.make cs) = m.make (cs ++ xs) := by
  induction xs generalizing cs with
  | nil => rw [List.foldl_nil, List.append_nil]
  | cons x xs ih =>
      rw [List.foldl_cons, join_eq, parts_make, ih, List.append_assoc, List.singleton_append]

/-- From the first operator on the chain is a combinator, and the operands that follow are
appended to it. -/
theorem foldl_join (x : Expr) {xs : List Expr} (h : xs ≠ []) :
    xs.foldl m.join x = m.make (m.parts x ++ xs) := by
  obtain ⟨y, ys, rfl⟩ := List.exists_cons_of_ne_nil h
  rw [List.foldl_cons, join_eq, foldl_join_make, List.append_assoc, List.singleton_append]

/-! ## What is counted and collected of a chain -/

theorem relations_make (cs : List Expr) : (m.make cs).relations = cs.flatMap Expr.relations := by
  rw [Expr.relations_eq, args_make]
  cases m <;> rfl

theorem timePoints_make (cs : List Expr) : (m.make cs).timePoints = cs.flatMap Expr.timePoints := by
  rw [Expr.timePoints_eq, args_make]
  cases m <;> rfl

theorem nodeCount_make (cs : List Expr) :
    (m.make cs).nodeCount = 1 + (cs.map Expr.nodeCount).sum := by
  rw [Expr.nodeCount_eq_sum, args_make]

/-- What a combinator only takes over from its operands is the same for an expression and for the
operands it stands for. -/
theorem flatMap_parts {α : Type} {f : Expr → List α} (hf : ∀ cs, f (m.make cs) = cs.flatMap f)
    (x : Expr) : (m.parts x).flatMap f = f x := by
  by_cases hx : ∃ cs, x = m.make cs
  · obtain ⟨cs, rfl⟩ := hx
    rw [parts_make, hf]
  · rw [parts_of_forall_ne m (not_exists.mp hx), List.flatMap_singleton]

theorem collect_foldl_join {α : Type} {f : Expr → List α}
    (hf : ∀ cs, f (m.make cs) = cs.flatMap f) (x : Expr) {xs : List Expr} (h : xs ≠ []) :
    f (xs.foldl m.join x) = (x :: xs).flatMap f := by
  rw [foldl_join m x h, hf, List.flatMap_append, flatMap_parts m hf, List.flatMap_cons]

/-- A chain of one operator has the operands of its first expression, or that expression itself
where it is not the operator's combinator, and then the other expressions as they are. -/
theorem foldl_join_spec (x : Expr) {xs : List Expr} (h : xs ≠ []) :
    let e := xs.foldl m.join x
    (∀ cs, x = m.make cs → e = m.make (cs ++ xs) ∧ e.args = cs ++ xs ∧
        e.nodeCount = ((x :: xs).map Expr.nodeCount).sum) ∧
      ((∀ cs, x ≠ m.make cs) → e = m.make (x :: xs) ∧ e.args = x :: xs ∧
        e.nodeCount = ((x :: xs).map Expr.nodeCount).sum + 1) ∧
      e.relations = (x :: xs).flatMap Expr.relations ∧
      e.timePoints = (x :: xs).flatMap Expr.timePoints ∧
      ∃ d, IsGreatest {d | ∃ c ∈ e.args, c.depth = d} d ∧ e.depth = 1 + d := by
  intro e
  have he : e = m.make (m.parts x ++ xs) := foldl_join m x h
  refine ⟨?_, ?_, m.collect_foldl_join m.relations_make x h,
    m.collect_foldl_join m.timePoints_make x h, ?_⟩
  · rintro cs rfl
    rw [parts_make] at he
    refine ⟨he, by rw [he, args_make], ?_⟩
    rw [he, nodeCount_make, List.map_append, List.sum_append, List.map_cons, List.sum_cons,
      nodeCount_make, Nat.add_assoc]
  · intro hx
    rw [parts_of_forall_ne m hx, List.singleton_append] at he
    refine ⟨he, by rw [he, args_make], ?_⟩
    rw [he, nodeCount_make, Nat.add_comm]
  · apply Expr.exists_isGreatest_depth_args
    rw [he, args_make]
    exact List.append_ne_nil_of_right_ne_nil _ h

/-- A conjunction that is extended by another one and by an integer, and the same conjunction as
the first operand of a disjunction. -/
theorem foldl_join_spec_conjunction_first :
    let r : Relation := .precedence (.constant 0) (.constant 1) 2
    let x : Expr := .and [r]
    let e := x &&& .and [] &&& .constant 3
    let d := x ||| .or [r]
    ([.and [], .constant 3] ≠ ([] : List Expr) ∧ x = conjunction.make [r] ∧
        e = .and [r, .and [], .constant 3] ∧ e.nodeCount = 6 ∧ e.relations = [r]) ∧
      ([.or [r]] ≠ ([] : List Expr) ∧ (∀ cs, x ≠ disjunction.make cs) ∧
        d = .or [x, .or [r]] ∧ d.nodeCount = 9 ∧ d.relations = [r, r]) := by
  intro r x e d
  have hxs : [.and [], .constant 3] ≠ ([] : List Expr) := List.cons_ne_nil _ _
  have hys : [.or [r]] ≠ ([] : List Expr) := List.cons_ne_nil _ _
  have hx : ∀ cs, x ≠ disjunction.make cs := fun _ => Expr.noConfusion
  obtain ⟨hextends, _, hrelations, _⟩ := conjunction.foldl_join_spec x hxs
  obtain ⟨_, hwraps, hrelations', _⟩ := disjunction.foldl_join_spec x hys
  obtain ⟨he, _, hcount⟩ := hextends [r] rfl
  obtain ⟨hd, _, hcount'⟩ := hwraps hx
  exact ⟨⟨hxs, rfl, he, hcount, hrelations⟩, hys, hx, hd, hcount', hrelations'⟩

end Combinator

end SchedulingLogic

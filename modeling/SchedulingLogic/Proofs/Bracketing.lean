import SchedulingLogic.Evaluation

/-!
# Bracketings

An operator joins two expressions at a time, so operands are joined through some
bracketing of them.  A left operand of the operator's own kind is extended, and hence
different bracketings are different trees.  All of them run like the one combinator over
all operands: same value or same fault, and the same events.
-/

namespace SchedulingLogic

/-- A way of joining operands two at a time, in their order. -/
inductive Bracketing (α : Type) where
  | operand (x : α)
  | join (left right : Bracketing α)

namespace Bracketing

variable {α : Type}

def operands : Bracketing α → List α
  | operand x => [x]
  | join l r => l.operands ++ r.operands

def joinWith (op : α → α → α) : Bracketing α → α
  | operand x => x
  | join l r => op (l.joinWith op) (r.joinWith op)

end Bracketing

theorem Expr.runEach_append (s : Schedule) (node : String) (xs ys : List Expr) :
    runEach s node (xs ++ ys) = do
      let bs ← runEach s node xs
      let cs ← runEach s node ys
      return bs ++ cs := by
  rw [runEach_eq_mapM, runEach_eq_mapM, runEach_eq_mapM]
  exact List.mapM_append

theorem Expr.runEach_singleton (s : Schedule) (node : String) (c : Expr) :
    runEach s node [c] = do
      let b ← run s c >>= Value.expectBool node
      return [b] := by
  simp [runEach]

/-- A combinator of any width, and the operator that joins two expressions by it. -/
structure Junction where
  node : String
  make : List Expr → Expr
  join : Expr → Expr → Expr
  total : List Bool → Bool
  run_make (s : Schedule) (cs : List Expr) :
    (make cs).run s = Expr.runEach s node cs >>= fun bs => pure (.bool (total bs))
  total_singleton (b : Bool) : total [b] = b
  total_append (bs cs : List Bool) : total (bs ++ cs) = total [total bs, total cs]
  join_eq (a b : Expr) :
    join a b = make [a, b] ∨ ∃ cs, a = make cs ∧ join a b = make (cs ++ [b])

namespace Junction

def conjunction : Junction where
  node := "And"
  make := .and
  join a b := a &&& b
  total bs := bs.all id
  run_make s cs := by rw [Expr.run]
  total_singleton b := by simp
  total_append bs cs := by simp
  join_eq a b := by
    cases a with
    | and cs => exact Or.inr ⟨cs, rfl, rfl⟩
    | _ => exact Or.inl rfl

def disjunction : Junction where
  node := "Or"
  make := .or
  join a b := a ||| b
  total bs := bs.any id
  run_make s cs := by rw [Expr.run]
  total_singleton b := by simp
  total_append bs cs := by simp
  join_eq a b := by
    cases a with
    | or cs => exact Or.inr ⟨cs, rfl, rfl⟩
    | _ => exact Or.inl rfl

variable (j : Junction) (s : Schedule)

/-- The truth value of the combinator over these operands. -/
def runTotal (cs : List Expr) : Traced Bool :=
  Expr.runEach s j.node cs >>= fun bs => pure (j.total bs)

theorem run_make_eq_runTotal (cs : List Expr) :
    (j.make cs).run s = j.runTotal s cs >>= fun b => pure (.bool b) := by
  simp [run_make, runTotal]

theorem runTotal_append (xs ys : List Expr) :
    j.runTotal s (xs ++ ys) = do
      let b ← j.runTotal s xs
      let c ← j.runTotal s ys
      return j.total [b, c] := by
  simp only [runTotal, Expr.runEach_append, bind_assoc, pure_bind, total_append j]

theorem runTotal_pair (x y : Expr) :
    j.runTotal s [x, y] = do
      let b ← j.runTotal s [x]
      let c ← j.runTotal s [y]
      return j.total [b, c] :=
  j.runTotal_append s [x] [y]

/-- A combinator as an operand of its own kind counts like its operands. -/
theorem runTotal_make (cs : List Expr) : j.runTotal s [j.make cs] = j.runTotal s cs := by
  rw [runTotal, Expr.runEach_singleton, run_make_eq_runTotal]
  simp [total_singleton]

theorem runTotal_join (a b : Expr) : j.runTotal s [j.join a b] = j.runTotal s [a, b] := by
  rcases j.join_eq a b with h | ⟨cs, rfl, h⟩
  · rw [h, runTotal_make]
  · rw [h, runTotal_make, runTotal_append, runTotal_pair, runTotal_make]

theorem runTotal_joinWith (t : Bracketing Expr) :
    j.runTotal s [t.joinWith j.join] = j.runTotal s t.operands := by
  induction t with
  | operand x => rfl
  | join l r ihl ihr =>
      -- Only totals of one-operand lists are compared: the joined tree itself may differ.
      rw [Bracketing.joinWith, runTotal_join, runTotal_pair, ihl, ihr, Bracketing.operands,
        runTotal_append]

/-- A joined expression is a combinator itself, whichever operands it has. -/
theorem run_join (a b : Expr) :
    (j.join a b).run s = j.runTotal s [j.join a b] >>= fun b => pure (.bool b) := by
  rcases j.join_eq a b with h | ⟨cs, _, h⟩
  · rw [h, runTotal_make, run_make_eq_runTotal]
  · rw [h, runTotal_make, run_make_eq_runTotal]

theorem run_joinWith {t : Bracketing Expr} (h : 2 ≤ t.operands.length) :
    (t.joinWith j.join).run s = (j.make t.operands).run s := by
  cases t with
  | operand x => simp [Bracketing.operands] at h
  | join l r =>
      have htotal := j.runTotal_joinWith s (.join l r)
      rw [Bracketing.joinWith] at htotal ⊢
      rw [run_join, htotal, run_make_eq_runTotal]

end Junction

/-- However at least two operands are bracketed, joining them evaluates like the
combinator over all of them. -/
theorem Expr.evaluate_bracketing (s : Schedule) (t : Bracketing Expr)
    (h : 2 ≤ t.operands.length) :
    (t.joinWith (· &&& ·)).evaluate s = (and t.operands).evaluate s ∧
      (t.joinWith (· ||| ·)).evaluate s = (or t.operands).evaluate s := by
  constructor
  · exact congrArg Traced.reportFailure (Junction.conjunction.run_joinWith s h)
  · exact congrArg Traced.reportFailure (Junction.disjunction.run_joinWith s h)

/-- A conjunction extended by a right-nested chain, with an operand of the wrong type. -/
theorem Expr.evaluate_bracketing_right_nested :
    let t : Bracketing Expr :=
      .join (.operand (and [relation .precedence (constant 0) (constant 1) 2]))
        (.join (.operand (and [])) (.operand (constant 3)))
    2 ≤ t.operands.length ∧ t.joinWith (· &&& ·) ≠ and t.operands ∧
      (t.joinWith (· &&& ·)).evaluate .empty = (and t.operands).evaluate .empty ∧
      (t.joinWith (· ||| ·)).evaluate .empty = (or t.operands).evaluate .empty :=
  ⟨by decide, by decide, evaluate_bracketing .empty _ (by decide)⟩

end SchedulingLogic

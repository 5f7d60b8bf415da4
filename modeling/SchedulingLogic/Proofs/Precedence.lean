import SchedulingLogic.Proofs.Negation

/-!
# Precedences

Two precedences between the same operands, one in each direction, say together what a
synchronization says.  A negated precedence is a precedence in the other direction, since
integers that are not ordered one way differ by at least one the other way.  Both laws need
only that the delay can be turned round within 64 bits: sums with it never wrap.
-/

namespace SchedulingLogic

theorem toInt_neg_of_ne_minValue {d : Int64} (h : d ≠ Int64.minValue) :
    (-d).toInt = -d.toInt := by
  have hle := d.le_toInt
  have hlt := d.toInt_lt
  have hne : d.toInt ≠ Int64.minValue.toInt := by
    intro heq
    exact h (Int64.toInt_inj.mp heq)
  rw [Int64.toInt_minValue] at hne
  rw [Int64.toInt_neg, Int.bmod_eq_of_le] <;> omega

theorem toInt_one_sub_of_le {d : Int64} (h : Int64.minValue + 2 ≤ d) :
    (1 - d).toInt = 1 - d.toInt := by
  have hmin : (Int64.minValue + 2).toInt = Int64.minValue.toInt + 2 := by decide
  have hle := Int64.le_iff_toInt_le.mp h
  have hlt := d.toInt_lt
  rw [hmin, Int64.toInt_minValue] at hle
  rw [Int64.toInt_sub, Int64.toInt_one, Int.bmod_eq_of_le] <;> omega

namespace Relation.Kind

variable {delay x y : Int64}

/-- Integers are equal when each is at most the other. -/
theorem check_synchronization_eq (h : delay ≠ Int64.minValue) :
    synchronization.check delay x y =
      (precedence.check delay x y && precedence.check (-delay) y x) := by
  rw [Bool.eq_iff_iff, Bool.and_eq_true, check_synchronization_iff, check_precedence_iff,
    check_precedence_iff, toInt_neg_of_ne_minValue h]
  omega

/-- Of two integers, one is at most the other or larger by one at least. -/
theorem not_check_precedence (h : Int64.minValue + 2 ≤ delay) :
    (!precedence.check delay x y) = precedence.check (1 - delay) y x := by
  rw [Bool.eq_iff_iff, Bool.not_eq_true', ← Bool.not_eq_true, check_precedence_iff,
    check_precedence_iff, toInt_one_sub_of_le h]
  omega

end Relation.Kind

namespace Expr

variable {s : Schedule} {k l : Relation.Kind} {a b : Expr} {d d' : Int64}

/-- The order of the operands does not matter to whether something is wrong with one of them. -/
theorem faults_relation_swap :
    (relation k a b d).faults s = [] ↔ (relation l b a d').faults s = [] := by
  rw [faults_relation_eq_nil_iff, faults_relation_eq_nil_iff, and_comm]

theorem faults_and_relations :
    (and [relation k a b d, relation l b a d']).faults s =
      (relation k a b d).faults s ++ (relation l b a d').faults s := by
  rw [faults_eq]
  simp [ownFaults, args, mismatch, unlessBoolean, isLeaf]

theorem faults_and_relations_eq_nil_iff :
    (and [relation k a b d, relation l b a d']).faults s = [] ↔
      (relation k a b d).faults s = [] := by
  rw [faults_and_relations, List.append_eq_nil_iff, and_iff_left_iff_imp]
  exact faults_relation_swap.mp

/-- The second relation looks at the operands again, so it is never the first to fail. -/
theorem outcome_and_relations_eq_error_iff {f : Fault} :
    ((and [relation k a b d, relation l b a d']).evaluate s).outcome = .error f ↔
      ((relation k a b d).evaluate s).outcome = .error f := by
  rw [outcome_eq_error_iff, outcome_eq_error_iff, faults_and_relations, List.head?_append]
  cases h : (relation k a b d).faults s with
  | nil => simp [faults_relation_swap.mp h]
  | cons f fs => simp

end Expr

namespace Relation

open SchedulingLogic.Expr

/-- A synchronization agrees with the conjunction of two precedences in opposite directions.
Only the name under which an operand is refused is another one. -/
theorem evaluate_synchronization (s : Schedule) (a b : Expr) {d : Int64}
    (hd : d ≠ Int64.minValue) :
    AgreeUpToNode s "integer" "Synchronization" "Precedence" [a, b]
      ((synchronization a b d).toExpr.evaluate s)
      (((precedence a b d).toExpr &&& (precedence b a (-d)).toExpr).evaluate s) := by
  have hconj : (precedence a b d).toExpr &&& (precedence b a (-d)).toExpr =
      .and [.relation .precedence a b d, .relation .precedence b a (-d)] := rfl
  rw [hconj]
  apply AgreeUpToNode.of_findSome?
  · apply outcome_eq_ok_congr s rfl rfl
    · have hsame : (relation .synchronization a b d).faults s = [] ↔
          (relation .precedence a b d).faults s = [] := by
        rw [faults_relation_eq_nil_iff, faults_relation_eq_nil_iff]
      exact hsame.trans faults_and_relations_eq_nil_iff.symm
    · simp [toExpr, synchronization, Kind.check_synchronization_eq hd]
  · intro f
    exact outcome_relation_eq_error_iff
  · intro f
    exact outcome_and_relations_eq_error_iff.trans outcome_relation_eq_error_iff

/-- From one end of the range of instants to the other: the law holds for the largest delay, and
an operand that is no integer is refused by both. -/
theorem evaluate_synchronization_full_range :
    let x : TimePoint := ⟨"x", "x", .start⟩
    let s : Schedule := (Schedule.empty.set x Int64.minValue).2
    let split (a b : Expr) (d : Int64) : Expr :=
      (precedence a b d).toExpr &&& (precedence b a (-d)).toExpr
    Int64.maxValue ≠ Int64.minValue ∧
      ((synchronization x (constant (-1)) Int64.maxValue).toExpr.evaluate s).outcome =
        .ok (.bool true) ∧
      ((split x (constant (-1)) Int64.maxValue).evaluate s).outcome = .ok (.bool true) ∧
      ((synchronization x (.or []) 3).toExpr.evaluate s).outcome =
        .error (.typeMismatch "Synchronization" "integer" "boolean") ∧
      ((split x (.or []) 3).evaluate s).outcome =
        .error (.typeMismatch "Precedence" "integer" "boolean") := by
  intro x s split
  have hd : Int64.maxValue ≠ Int64.minValue := by decide
  have htrue : ((synchronization x (constant (-1)) Int64.maxValue).toExpr.evaluate s).outcome =
      .ok (.bool true) := by decide
  have hlaw := (evaluate_synchronization s x (constant (-1)) hd).ok_iff (.bool true)
  exact ⟨hd, htrue, hlaw.mp htrue, by decide, by decide⟩

/-- The complement of a precedence is a precedence in the other direction.  The two look at
the operands in opposite orders, so when both fail they may tell different faults. -/
theorem evaluate_not_precedence (s : Schedule) (a b : Expr) {d : Int64}
    (hd : Int64.minValue + 2 ≤ d) :
    (∀ v, ((~~~(precedence a b d).toExpr).evaluate s).outcome = .ok v ↔
        ((precedence b a (1 - d)).toExpr.evaluate s).outcome = .ok v) ∧
      ((∃ f, ((~~~(precedence a b d).toExpr).evaluate s).outcome = .error f) ↔
        ∃ f, ((precedence b a (1 - d)).toExpr.evaluate s).outcome = .error f) := by
  have hok (v : Value) : ((~~~(precedence a b d).toExpr).evaluate s).outcome = .ok v ↔
      ((precedence b a (1 - d)).toExpr.evaluate s).outcome = .ok v := by
    apply outcome_eq_ok_congr s rfl rfl
    · change (Expr.not (relation .precedence a b d)).faults s = [] ↔ _
      rw [faults_not_of_isBoolean rfl]
      exact faults_relation_swap
    · exact (truth_not s _).trans (Kind.not_check_precedence hd)
  refine ⟨hok, ?_⟩
  simp only [Traced.exists_outcome_eq_error_iff, hok]

/-- The smallest delay that can be turned round.  The operands are looked at in opposite orders,
so that different ones of two missing points are told. -/
theorem evaluate_not_precedence_full_range :
    let x : TimePoint := ⟨"x", "x", .start⟩
    let y : TimePoint := ⟨"y", "y", .start⟩
    let z : TimePoint := ⟨"z", "z", .finish⟩
    let s : Schedule := (Schedule.empty.set x Int64.maxValue).2
    let d : Int64 := Int64.minValue + 2
    Int64.minValue + 2 ≤ d ∧
      ((~~~(precedence x (constant 0) d).toExpr).evaluate s).outcome = .ok (.bool true) ∧
      ((precedence (constant 0) x (1 - d)).toExpr.evaluate s).outcome = .ok (.bool true) ∧
      ((~~~(precedence y z d).toExpr).evaluate s).outcome =
        .error (.unassigned "y.start_time") ∧
      ((precedence z y (1 - d)).toExpr.evaluate s).outcome =
        .error (.unassigned "z.end_time") := by
  intro x y z s d
  have hd : Int64.minValue + 2 ≤ d := by decide
  have htrue : ((~~~(precedence x (constant 0) d).toExpr).evaluate s).outcome =
      .ok (.bool true) := by decide
  have hlaw := (evaluate_not_precedence s x (constant 0) hd).1 (.bool true)
  exact ⟨hd, htrue, hlaw.mp htrue, by decide, by decide⟩

end Relation

end SchedulingLogic

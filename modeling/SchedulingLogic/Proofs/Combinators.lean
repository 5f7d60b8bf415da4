import SchedulingLogic.Proofs.Walk

/-!
# Combinators

A combinator succeeds exactly when all of its operands have truth values, since none of them
is skipped.  So neither the order of the operands nor how often each one occurs matters to
the value, or to whether there is one.  They do decide which fault is met first.
-/

namespace SchedulingLogic

theorem Traced.exists_outcome_eq_error_iff {α : Type} {x : Traced α} :
    (∃ f, x.outcome = .error f) ↔ ¬ ∃ a, x.outcome = .ok a := by
  cases x.outcome <;> simp

theorem Value.eq_bool_iff {v : Value} {b : Bool} {P : Prop} (h : b = true ↔ P) :
    v = .bool b ↔ ∃ b', v = .bool b' ∧ (b' = true ↔ P) := by
  constructor
  · rintro rfl
    exact ⟨b, rfl, h⟩
  · rintro ⟨b', rfl, hb'⟩
    rw [Bool.eq_iff_iff.mpr (hb'.trans h.symm)]

namespace Expr

/-- The name of a combinator in faults. -/
def combinator? : Expr → Option String
  | not _ => some "Not"
  | and _ => some "And"
  | or _ => some "Or"
  | constant _ | timePoint _ | relation .. => none

/-- The expression evaluates to a truth value. -/
def HasTruth (s : Schedule) (e : Expr) : Prop := ∃ b, (e.evaluate s).outcome = .ok (.bool b)

/-- The expression evaluates to true. -/
def IsTrue (s : Schedule) (e : Expr) : Prop := (e.evaluate s).outcome = .ok (.bool true)

instance (s : Schedule) (e : Expr) : Decidable (e.IsTrue s) :=
  inferInstanceAs (Decidable ((e.evaluate s).outcome = .ok (.bool true)))

variable {s : Schedule} {e : Expr} {cs : List Expr} {v : Value}

theorem hasTruth_iff : e.HasTruth s ↔ e.faults s = [] ∧ e.isLeaf = false := by
  simp [HasTruth, outcome_eq_bool_iff]

theorem IsTrue.hasTruth (h : e.IsTrue s) : e.HasTruth s := ⟨true, h⟩

theorem HasTruth.isTrue_iff (h : e.HasTruth s) : e.IsTrue s ↔ e.truth s = true := by
  obtain ⟨hfaults, hleaf⟩ := hasTruth_iff.mp h
  rw [IsTrue, outcome_eq_bool_iff, and_iff_right hfaults, and_iff_right hleaf]

theorem mismatch_of_combinator? {name : String} (h : e.combinator? = some name) (c : Expr) :
    e.mismatch c = unlessBoolean name c := by
  cases e <;> simp_all [combinator?, mismatch]

/-- Nothing is wrong with a combinator when all of its operands have truth values. -/
theorem faults_eq_nil_iff_of_combinator? {name : String} (h : e.combinator? = some name) :
    e.faults s = [] ↔ ∀ c ∈ e.args, c.HasTruth s := by
  have hown : e.ownFaults s = [] := by cases e <;> simp_all [combinator?, ownFaults]
  rw [faults_eq_nil_iff_args, and_iff_right hown]
  simp only [mismatch_of_combinator? h, unlessBoolean_eq_nil_iff, hasTruth_iff]

/-- A conjunction is judged when all operands are, and true when all operands are. -/
theorem outcome_and_eq_ok_iff :
    ((and cs).evaluate s).outcome = .ok v ↔
      (∀ c ∈ cs, c.HasTruth s) ∧ ∃ b, v = .bool b ∧ (b = true ↔ ∀ c ∈ cs, c.IsTrue s) := by
  rw [outcome_eq_ok_iff, value_of_not_isLeaf s rfl, truth_and,
    faults_eq_nil_iff_of_combinator? rfl]
  apply and_congr_right
  intro h
  apply Value.eq_bool_iff
  rw [List.all_eq_true]
  apply forall₂_congr
  intro c hc
  exact (h c hc).isTrue_iff.symm

/-- A disjunction is judged when all operands are, and true when some operand is. -/
theorem outcome_or_eq_ok_iff :
    ((or cs).evaluate s).outcome = .ok v ↔
      (∀ c ∈ cs, c.HasTruth s) ∧ ∃ b, v = .bool b ∧ (b = true ↔ ∃ c ∈ cs, c.IsTrue s) := by
  rw [outcome_eq_ok_iff, value_of_not_isLeaf s rfl, truth_or,
    faults_eq_nil_iff_of_combinator? rfl]
  apply and_congr_right
  intro h
  apply Value.eq_bool_iff
  rw [List.any_eq_true]
  apply exists_congr
  intro c
  apply and_congr_right
  intro hc
  exact (h c hc).isTrue_iff.symm

theorem isTrue_and_iff : (and cs).IsTrue s ↔ ∀ c ∈ cs, c.IsTrue s := by
  rw [IsTrue, outcome_and_eq_ok_iff]
  constructor
  · rintro ⟨_, b, hb, htrue⟩
    cases hb
    exact htrue.mp rfl
  · intro h
    refine ⟨?_, true, rfl, ?_⟩
    · intro c hc
      exact (h c hc).hasTruth
    · exact iff_of_true rfl h

/-- Combinators over the same operands have the same value and fail together, in whatever
order and however often the operands occur. -/
theorem evaluate_same_operands (s : Schedule) {cs ds : List Expr} (h : ∀ c, c ∈ cs ↔ c ∈ ds) :
    ((∀ v, ((and cs).evaluate s).outcome = .ok v ↔ ((and ds).evaluate s).outcome = .ok v) ∧
        ((∃ f, ((and cs).evaluate s).outcome = .error f) ↔
          ∃ f, ((and ds).evaluate s).outcome = .error f)) ∧
      (∀ v, ((or cs).evaluate s).outcome = .ok v ↔ ((or ds).evaluate s).outcome = .ok v) ∧
        ((∃ f, ((or cs).evaluate s).outcome = .error f) ↔
          ∃ f, ((or ds).evaluate s).outcome = .error f) := by
  have hand (v : Value) :
      ((and cs).evaluate s).outcome = .ok v ↔ ((and ds).evaluate s).outcome = .ok v := by
    simp only [outcome_and_eq_ok_iff, h]
  have hor (v : Value) :
      ((or cs).evaluate s).outcome = .ok v ↔ ((or ds).evaluate s).outcome = .ok v := by
    simp only [outcome_or_eq_ok_iff, h]
  refine ⟨⟨hand, ?_⟩, hor, ?_⟩
  · simp only [Traced.exists_outcome_eq_error_iff, hand]
  · simp only [Traced.exists_outcome_eq_error_iff, hor]

/-- Reordered and repeated operands; with failing ones, another fault is met first. -/
theorem evaluate_same_operands_repeated :
    let a : Expr := relation .precedence (constant 0) (constant 1) 1
    let b : Expr := relation .synchronization (constant 0) (constant 1) 0
    let x : Expr := timePoint ⟨"x", "x", .start⟩
    ((∀ c, c ∈ [a, b, a] ↔ c ∈ [b, a]) ∧
        ((and [a, b, a]).evaluate .empty).outcome = .ok (.bool false) ∧
        ((and [b, a]).evaluate .empty).outcome = .ok (.bool false) ∧
        ((or [b, a]).evaluate .empty).outcome = .ok (.bool true)) ∧
      (∀ c, c ∈ [constant 3, a, x] ↔ c ∈ [x, a, x, constant 3]) ∧
        ((and [constant 3, a, x]).evaluate .empty).outcome =
          .error (.typeMismatch "And" "boolean" "integer") ∧
        ((and [x, a, x, constant 3]).evaluate .empty).outcome =
          .error (.unassigned "x.start_time") ∧
        ∃ f, ((or [x, a, x, constant 3]).evaluate .empty).outcome = .error f := by
  intro a b x
  have hab : ∀ c, c ∈ [a, b, a] ↔ c ∈ [b, a] := by
    intro c
    simp only [List.mem_cons, List.not_mem_nil, or_false]
    tauto
  have hax : ∀ c, c ∈ [constant 3, a, x] ↔ c ∈ [x, a, x, constant 3] := by
    intro c
    simp only [List.mem_cons, List.not_mem_nil, or_false]
    tauto
  refine ⟨⟨hab, by decide, ?_, ?_⟩, hax, by decide, by decide, ?_⟩
  · exact ((evaluate_same_operands .empty hab).1.1 (.bool false)).mp (by decide)
  · exact ((evaluate_same_operands .empty hab).2.1 (.bool true)).mp (by decide)
  · exact (evaluate_same_operands .empty hax).2.2.mp ⟨_, rfl⟩

end Expr

end SchedulingLogic

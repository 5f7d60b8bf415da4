import SchedulingLogic.Proofs.Walk

/-!
# Types and meaning of expressions

Leaves are integer terms, and formulas are built over them.  An evaluation succeeds
exactly on terms and formulas whose points all have instants, and the value is the
classical one: a conjunction means that all operands hold, a relation compares
integers without bounds.
-/

namespace SchedulingLogic

/-- The relation between integers that a kind stands for. -/
def Relation.Kind.Relates : Kind → Int → Int → Prop
  | precedence, x, y => x ≤ y
  | synchronization, x, y => x = y

theorem Relation.Kind.check_iff_relates {k : Kind} {delay x y : Int64} :
    k.check delay x y = true ↔ k.Relates (x.toInt + delay.toInt) y.toInt := by
  cases k with
  | precedence => exact check_precedence_iff
  | synchronization => exact check_synchronization_iff

namespace Expr

/-- Boolean expressions with well-typed operands throughout. -/
inductive IsFormula : Expr → Prop
  | relation (k : Relation.Kind) {a b : Expr} (delay : Int64)
      (ha : a.isLeaf = true) (hb : b.isLeaf = true) : IsFormula (relation k a b delay)
  | not {a : Expr} (ha : IsFormula a) : IsFormula (not a)
  | and {cs : List Expr} (h : ∀ c ∈ cs, IsFormula c) : IsFormula (and cs)
  | or {cs : List Expr} (h : ∀ c ∈ cs, IsFormula c) : IsFormula (or cs)

def instant? (s : Schedule) : Expr → Option Int64
  | constant n => some n
  | timePoint p => s.get? p
  | relation .. | not _ | and _ | or _ => none

/-- The classical truth of a formula over the integers. -/
def Holds (s : Schedule) : Expr → Prop
  | constant _ | timePoint _ => False
  | relation k a b delay =>
      ∃ x ∈ a.instant? s, ∃ y ∈ b.instant? s, k.Relates (x.toInt + delay.toInt) y.toInt
  | not a => ¬ Holds s a
  | and cs => ∀ c, (_ : c ∈ cs) → Holds s c
  | or cs => ∃ c, ∃ _ : c ∈ cs, Holds s c

/-- Leaves mean integers, and all other expressions mean truth values. -/
def Means (s : Schedule) (e : Expr) : Value → Prop
  | .int n => e.instant? s = some n
  | .bool b => e.isLeaf = false ∧ (b = true ↔ e.Holds s)

end Expr

/-- Every point of the expression has an instant. -/
def Schedule.Covers (s : Schedule) (e : Expr) : Prop :=
  ∀ p ∈ e.timePoints, (s.get? p).isSome = true

theorem Schedule.covers_iff {s : Schedule} {e : Expr} :
    s.Covers e ↔
      (∀ p, e.point? = some p → (s.get? p).isSome = true) ∧ ∀ c ∈ e.args, s.Covers c := by
  unfold Covers
  rw [Expr.timePoints_eq]
  constructor
  · intro h
    constructor
    · intro p hp
      apply h p
      exact List.mem_append_left _ (by simp [hp])
    · intro c hc p hp
      apply h p
      exact List.mem_append_right _ (List.mem_flatMap.mpr ⟨c, hc, hp⟩)
  · rintro ⟨hroot, hargs⟩ p hp
    rcases List.mem_append.mp hp with hp | hp
    · exact hroot p (by simpa using hp)
    · obtain ⟨c, hc, hpc⟩ := List.mem_flatMap.mp hp
      exact hargs c hc p hpc

theorem Schedule.Covers.exists_get? {s : Schedule} {p : TimePoint} (h : s.Covers (.timePoint p)) :
    ∃ v, s.get? p = some v :=
  Option.isSome_iff_exists.mp ((Schedule.covers_iff.mp h).1 p rfl)

namespace Expr

variable {s : Schedule}

theorem IsFormula.not_isLeaf {e : Expr} (h : e.IsFormula) : e.isLeaf = false := by
  cases h <;> rfl

theorem IsFormula.isBoolean {e : Expr} (h : e.IsFormula) : e.isBoolean = true := by
  rw [isBoolean_eq_not_isLeaf, h.not_isLeaf]
  rfl

theorem ownFaults_eq_nil_iff {e : Expr} :
    e.ownFaults s = [] ↔ ∀ p, e.point? = some p → (s.get? p).isSome = true := by
  cases e with
  | timePoint p => cases h : s.get? p <;> simp [ownFaults, point?, h]
  | _ => simp [ownFaults, point?]

def IsTyped (e : Expr) : Prop := e.isLeaf = true ∨ e.IsFormula

theorem isFormula_iff_of_not_isLeaf {e : Expr} (h : e.isLeaf = false) :
    e.IsFormula ↔ e.IsTyped := by
  simp [IsTyped, h]

theorem isTyped_and_unlessBoolean_iff {node : String} {c : Expr} :
    c.IsTyped ∧ unlessBoolean node c = [] ↔ c.IsFormula := by
  rw [unlessBoolean_eq_nil_iff]
  constructor
  · rintro ⟨hc, hleaf⟩
    exact (isFormula_iff_of_not_isLeaf hleaf).mpr hc
  · intro hc
    exact ⟨Or.inr hc, hc.not_isLeaf⟩

/-- An expression is well typed when its operands are and none causes a fault. -/
theorem isTyped_iff {e : Expr} :
    e.IsTyped ↔ ∀ c ∈ e.args, c.IsTyped ∧ e.mismatch c = [] := by
  cases e with
  | constant n => simp [IsTyped, isLeaf, args]
  | timePoint p => simp [IsTyped, isLeaf, args]
  | relation k a b delay =>
      rw [← isFormula_iff_of_not_isLeaf rfl]
      simp only [args, mismatch_relation, unlessInteger_eq_nil_iff]
      constructor
      · intro h c hc
        cases h with
        | relation _ _ ha hb =>
            have hleaf : c.isLeaf = true := by
              rcases List.mem_pair.mp hc with rfl | rfl
              · exact ha
              · exact hb
            exact ⟨Or.inl hleaf, hleaf⟩
      · intro h
        exact .relation k delay (h a (by simp)).2 (h b (by simp)).2
  | not a =>
      rw [← isFormula_iff_of_not_isLeaf rfl]
      simp only [args, mismatch, isTyped_and_unlessBoolean_iff, List.mem_singleton, forall_eq]
      constructor
      · intro h
        cases h with
        | not ha => exact ha
      · exact .not
  | and cs =>
      rw [← isFormula_iff_of_not_isLeaf rfl]
      simp only [args, mismatch, isTyped_and_unlessBoolean_iff]
      constructor
      · intro h
        cases h with
        | and hcs => exact hcs
      · exact .and
  | or cs =>
      rw [← isFormula_iff_of_not_isLeaf rfl]
      simp only [args, mismatch, isTyped_and_unlessBoolean_iff]
      constructor
      · intro h
        cases h with
        | or hcs => exact hcs
      · exact .or

/-- Nothing is wrong exactly with well-typed expressions over points with instants. -/
theorem faults_eq_nil_iff {e : Expr} : e.faults s = [] ↔ e.IsTyped ∧ s.Covers e := by
  induction e using inductionOn with
  | step e ih =>
      rw [faults_eq_nil_iff_args, ownFaults_eq_nil_iff, Schedule.covers_iff, isTyped_iff]
      constructor
      · rintro ⟨hroot, hargs⟩
        have hcs : ∀ c ∈ e.args, c.IsTyped ∧ s.Covers c := by
          intro c hc
          exact (ih c hc).mp (hargs c hc).1
        refine ⟨?_, hroot, ?_⟩
        · intro c hc
          exact ⟨(hcs c hc).1, (hargs c hc).2⟩
        · intro c hc
          exact (hcs c hc).2
      · rintro ⟨htyped, hroot, hcovers⟩
        refine ⟨hroot, ?_⟩
        intro c hc
        obtain ⟨hctyped, hmismatch⟩ := htyped c hc
        exact ⟨(ih c hc).mpr ⟨hctyped, hcovers c hc⟩, hmismatch⟩

theorem instant?_eq_some {e : Expr} (hleaf : e.isLeaf = true) (hcovers : s.Covers e) :
    e.instant? s = some (e.instant s) := by
  cases e with
  | constant n => rfl
  | timePoint p =>
      have hp := (Schedule.covers_iff.mp hcovers).1 p rfl
      rw [instant?, instant]
      cases h : s.get? p with
      | none => simp [h] at hp
      | some n => rfl
  | _ => simp [isLeaf] at hleaf

/-- The boolean that is computed is the classical truth of the formula. -/
theorem truth_iff_holds {e : Expr} (h : e.IsFormula) (hcovers : s.Covers e) :
    e.truth s = true ↔ e.Holds s := by
  induction h with
  | @relation k a b delay ha hb =>
      have hargs := (Schedule.covers_iff.mp hcovers).2
      have hx := instant?_eq_some ha (hargs a (by simp [args]))
      have hy := instant?_eq_some hb (hargs b (by simp [args]))
      rw [truth_relation, Relation.Kind.check_iff_relates, Holds, hx, hy]
      simp
  | @not a _ ih =>
      have hargs := (Schedule.covers_iff.mp hcovers).2
      rw [truth_not, Holds, ← ih (hargs a (by simp [args]))]
      simp
  | @and cs _ ih =>
      have hargs := (Schedule.covers_iff.mp hcovers).2
      rw [truth_and, List.all_eq_true, Holds]
      apply forall₂_congr
      intro c hc
      exact ih c hc (hargs c hc)
  | @or cs _ ih =>
      have hargs := (Schedule.covers_iff.mp hcovers).2
      rw [truth_or, List.any_eq_true, Holds]
      constructor
      · rintro ⟨c, hc, htrue⟩
        exact ⟨c, hc, (ih c hc (hargs c hc)).mp htrue⟩
      · rintro ⟨c, hc, hholds⟩
        exact ⟨c, hc, (ih c hc (hargs c hc)).mpr hholds⟩

theorem means_value {e : Expr} (htyped : e.IsTyped) (hcovers : s.Covers e) :
    e.Means s (e.value s) := by
  rcases htyped with hleaf | hformula
  · rw [value_of_isLeaf s hleaf]
    exact instant?_eq_some hleaf hcovers
  · rw [value_of_isBoolean s hformula.isBoolean]
    exact ⟨hformula.not_isLeaf, truth_iff_holds hformula hcovers⟩

theorem Means.isBoolean_iff {e : Expr} {v : Value} (h : e.Means s v) :
    e.isBoolean = true ↔ ∃ b, v = .bool b := by
  cases v with
  | int n => cases e <;> simp_all [Means, instant?, isBoolean]
  | bool b => simp [isBoolean_eq_not_isLeaf, h.1]

/-- Evaluation succeeds exactly on well-typed expressions over points with instants,
and then gives the classical meaning. -/
theorem evaluate_sound_complete (s : Schedule) (e : Expr) :
    ((∃ v, (e.evaluate s).outcome = .ok v) ↔
        (e.isLeaf = true ∨ e.IsFormula) ∧ ∀ p ∈ e.timePoints, (s.get? p).isSome = true) ∧
      ∀ v, (e.evaluate s).outcome = .ok v →
        e.Means s v ∧ (e.isBoolean = true ↔ ∃ b, v = .bool b) := by
  constructor
  · simp only [outcome_eq_ok_iff, exists_and_left, exists_eq, and_true]
    exact faults_eq_nil_iff
  · intro v hv
    obtain ⟨hnil, rfl⟩ := (outcome_eq_ok_iff s).mp hv
    obtain ⟨htyped, hcovers⟩ := faults_eq_nil_iff.mp hnil
    have hmeans := means_value htyped hcovers
    exact ⟨hmeans, hmeans.isBoolean_iff⟩

end Expr

end SchedulingLogic

import Mathlib.Algebra.Ring.Parity
import Mathlib.Data.List.Forall2
import SchedulingLogic.Proofs.Causes

/-!
# Relaxing delays

A smaller delay makes a precedence easier to satisfy, and under a negation it is a larger one
that does.  So when the delays under an even number of negations shrink and those under an odd
number grow, an expression that is satisfied stays so.  Faults do not depend on delays.
-/

namespace SchedulingLogic

theorem forall₂_of_zip {α β : Type} {R : α → β → Prop} {xs : List α} {ys : List β}
    (hlength : xs.length = ys.length) (h : ∀ x y, (x, y) ∈ xs.zip ys → R x y) :
    List.Forall₂ R xs ys :=
  List.forall₂_iff_zip.mpr ⟨hlength, fun hxy => h _ _ hxy⟩

theorem flatMap_eq_of_forall₂ {α β γ : Type} {f : α → List γ} {g : β → List γ} {xs : List α}
    {ys : List β} (h : List.Forall₂ (fun x y => f x = g y) xs ys) :
    xs.flatMap f = ys.flatMap g := by
  induction h with
  | nil => rfl
  | cons hxy _ ih => rw [List.flatMap_cons, List.flatMap_cons, hxy, ih]

theorem Relation.Kind.check_precedence_of_le {delay delay' x y : Int64} (h : delay' ≤ delay)
    (hcheck : precedence.check delay x y = true) : precedence.check delay' x y = true := by
  rw [check_precedence_iff] at hcheck ⊢
  have hle := Int64.le_iff_toInt_le.mp h
  omega

/-- With this many negations around it, a truth value that goes from `b` to `b'` does no harm. -/
def Helps (nots : Nat) (b b' : Bool) : Prop :=
  (Even nots → b = true → b' = true) ∧ (Odd nots → b' = true → b = true)

namespace Helps

variable {nots : Nat} {α β : Type} {f : α → Bool} {g : β → Bool} {xs : List α} {ys : List β}

theorem refl (b : Bool) : Helps nots b b := ⟨fun _ h => h, fun _ h => h⟩

theorem not {b b' : Bool} (h : Helps (nots + 1) b b') : Helps nots (!b) (!b') := by
  obtain ⟨heven, hodd⟩ := h
  constructor
  · intro hnots
    have himp := hodd hnots.add_one
    cases b <;> cases b' <;> simp_all
  · intro hnots
    have himp := heven hnots.add_one
    cases b <;> cases b' <;> simp_all

theorem and {a a' b b' : Bool} (ha : Helps nots a a') (hb : Helps nots b b') :
    Helps nots (a && b) (a' && b') := by
  simp only [Helps, Bool.and_eq_true]
  constructor
  · intro hnots h
    exact ⟨ha.1 hnots h.1, hb.1 hnots h.2⟩
  · intro hnots h
    exact ⟨ha.2 hnots h.1, hb.2 hnots h.2⟩

theorem or {a a' b b' : Bool} (ha : Helps nots a a') (hb : Helps nots b b') :
    Helps nots (a || b) (a' || b') := by
  simp only [Helps, Bool.or_eq_true]
  constructor
  · intro hnots h
    exact h.imp (ha.1 hnots) (hb.1 hnots)
  · intro hnots h
    exact h.imp (ha.2 hnots) (hb.2 hnots)

theorem all (h : List.Forall₂ (fun x y => Helps nots (f x) (g y)) xs ys) :
    Helps nots (xs.all f) (ys.all g) := by
  induction h with
  | nil => exact refl true
  | cons hxy _ ih => exact hxy.and ih

theorem any (h : List.Forall₂ (fun x y => Helps nots (f x) (g y)) xs ys) :
    Helps nots (xs.any f) (ys.any g) := by
  induction h with
  | nil => exact refl false
  | cons hxy _ ih => exact hxy.or ih

end Helps

namespace Expr

/-- The second expression is the first one up to the delays of precedences.  With `nots`
negations around the whole, these delays are at most what they were under an even number of
negations, and at least that under an odd number. -/
inductive Relaxed : Nat → Expr → Expr → Prop
  | constant {nots : Nat} (n : Int64) : Relaxed nots (constant n) (constant n)
  | timePoint {nots : Nat} (p : TimePoint) : Relaxed nots (timePoint p) (timePoint p)
  | precedence {nots : Nat} {a a' b b' : Expr} {delay delay' : Int64} (ha : Relaxed nots a a')
      (hb : Relaxed nots b b') (heven : Even nots → delay' ≤ delay)
      (hodd : Odd nots → delay ≤ delay') :
      Relaxed nots (relation .precedence a b delay) (relation .precedence a' b' delay')
  | synchronization {nots : Nat} {a a' b b' : Expr} (delay : Int64) (ha : Relaxed nots a a')
      (hb : Relaxed nots b b') :
      Relaxed nots (relation .synchronization a b delay) (relation .synchronization a' b' delay)
  | not {nots : Nat} {a a' : Expr} (ha : Relaxed (nots + 1) a a') : Relaxed nots (not a) (not a')
  | and {nots : Nat} {cs cs' : List Expr} (hlength : cs.length = cs'.length)
      (hcs : ∀ c c', (c, c') ∈ cs.zip cs' → Relaxed nots c c') : Relaxed nots (and cs) (and cs')
  | or {nots : Nat} {cs cs' : List Expr} (hlength : cs.length = cs'.length)
      (hcs : ∀ c c', (c, c') ∈ cs.zip cs' → Relaxed nots c c') : Relaxed nots (or cs) (or cs')

namespace Relaxed

variable {s : Schedule} {nots : Nat} {e e' : Expr}

theorem isLeaf_eq (h : Relaxed nots e e') : e.isLeaf = e'.isLeaf := by cases h <;> rfl

theorem instant_eq (h : Relaxed nots e e') : e.instant s = e'.instant s := by cases h <;> rfl

theorem ownFaults_eq (h : Relaxed nots e e') : e.ownFaults s = e'.ownFaults s := by
  cases h <;> rfl

theorem and_of_forall₂ {cs cs' : List Expr} (h : List.Forall₂ (Relaxed nots) cs cs') :
    Relaxed nots (.and cs) (.and cs') :=
  .and h.length_eq fun _ _ hcc' => (List.forall₂_iff_zip.mp h).2 hcc'

theorem or_of_forall₂ {cs cs' : List Expr} (h : List.Forall₂ (Relaxed nots) cs cs') :
    Relaxed nots (.or cs) (.or cs') :=
  .or h.length_eq fun _ _ hcc' => (List.forall₂_iff_zip.mp h).2 hcc'

/-- The operands are relaxed one by one, in a negation under one more of them. -/
theorem exists_args (h : Relaxed nots e e') :
    ∃ below, List.Forall₂ (Relaxed below) e.args e'.args := by
  cases h with
  | constant n => exact ⟨nots, .nil⟩
  | timePoint p => exact ⟨nots, .nil⟩
  | precedence ha hb heven hodd => exact ⟨nots, .cons ha (.cons hb .nil)⟩
  | synchronization delay ha hb => exact ⟨nots, .cons ha (.cons hb .nil)⟩
  | not ha => exact ⟨nots + 1, .cons ha .nil⟩
  | and hlength hcs => exact ⟨nots, forall₂_of_zip hlength hcs⟩
  | or hlength hcs => exact ⟨nots, forall₂_of_zip hlength hcs⟩

theorem mismatch_eq {c c' : Expr} (h : Relaxed nots e e') (hleaf : c.isLeaf = c'.isLeaf) :
    e.mismatch c = e'.mismatch c' := by
  cases h <;> simp [mismatch, unlessInteger, unlessBoolean, isBoolean_eq_not_isLeaf, hleaf]

theorem faults_eq (h : Relaxed nots e e') : e.faults s = e'.faults s := by
  induction e using inductionOn generalizing nots e' with
  | step e ih =>
      obtain ⟨below, hargs⟩ := h.exists_args
      have hpairs := (List.forall₂_and_left e.args e'.args).mpr ⟨fun c hc => @ih c hc, hargs⟩
      have hbelow : (e.args.flatMap fun c => c.faults s ++ e.mismatch c) =
          e'.args.flatMap fun c' => c'.faults s ++ e'.mismatch c' := by
        apply flatMap_eq_of_forall₂
        apply hpairs.imp
        rintro c c' ⟨hc, hcc'⟩
        rw [hc hcc', h.mismatch_eq hcc'.isLeaf_eq]
      rw [Expr.faults_eq, Expr.faults_eq s e', h.ownFaults_eq, hbelow]

/-- Faults put aside, what the delays change in the truth value helps. -/
theorem helps_truth (h : Relaxed nots e e') : Helps nots (e.truth s) (e'.truth s) := by
  induction h with
  | constant n => exact .refl _
  | timePoint p => exact .refl _
  | precedence ha hb heven hodd _ _ =>
      rw [truth_relation, truth_relation, ha.instant_eq, hb.instant_eq]
      constructor
      · intro hnots
        exact Relation.Kind.check_precedence_of_le (heven hnots)
      · intro hnots
        exact Relation.Kind.check_precedence_of_le (hodd hnots)
  | synchronization delay ha hb _ _ =>
      rw [truth_relation, truth_relation, ha.instant_eq, hb.instant_eq]
      exact .refl _
  | not _ ih =>
      rw [truth_not, truth_not]
      exact ih.not
  | and hlength _ ih =>
      rw [truth_and, truth_and]
      exact .all (forall₂_of_zip hlength ih)
  | or hlength _ ih =>
      rw [truth_or, truth_or]
      exact .any (forall₂_of_zip hlength ih)

end Relaxed

/-- Relaxed delays keep an expression satisfied, and keep it failing with the same fault. -/
theorem isSatisfied_relaxed (s : Schedule) {e e' : Expr} (h : Relaxed 0 e e') :
    ((e.isSatisfied s).outcome = .ok true → (e'.isSatisfied s).outcome = .ok true) ∧
      ∀ f, (e.isSatisfied s).outcome = .error f ↔ (e'.isSatisfied s).outcome = .error f := by
  constructor
  · simp only [outcome_isSatisfied_eq_ok_iff, outcome_eq_bool_iff, h.faults_eq, h.isLeaf_eq]
    rintro ⟨hfaults, hleaf, htruth⟩
    exact ⟨hfaults, hleaf, h.helps_truth.1 Even.zero htruth⟩
  · intro f
    have hint : (∃ n, (e.evaluate s).outcome = .ok (.int n)) ↔
        ∃ n, (e'.evaluate s).outcome = .ok (.int n) := by
      simp only [outcome_eq_int_iff, h.faults_eq, h.isLeaf_eq, h.instant_eq]
    rw [outcome_isSatisfied_eq_error_iff, outcome_isSatisfied_eq_error_iff, hint,
      outcome_eq_error_iff, outcome_eq_error_iff, h.faults_eq]

/-- Delays that shrink, grow and shrink again, under no negation, one and two. -/
theorem isSatisfied_relaxed_under_negations :
    let x : TimePoint := ⟨"x", "x", .finish⟩
    let y : TimePoint := ⟨"y", "y", .start⟩
    let s : Schedule := ((Schedule.empty.set x 10).2.set y 12).2
    let e (d₀ d₁ d₂ : Int64) : Expr := and [relation .precedence x y d₀,
      not (or [relation .precedence x y d₁, not (relation .precedence y x d₂)])]
    Relaxed 0 (e 2 3 (-2)) (e Int64.minValue Int64.maxValue (-7)) ∧
      ((e 2 3 (-2)).isSatisfied s).outcome = .ok true ∧
      ((e Int64.minValue Int64.maxValue (-7)).isSatisfied s).outcome = .ok true := by
  intro x y s e
  have hprecedence {nots : Nat} {p q : TimePoint} {d d' : Int64} (heven : Even nots → d' ≤ d)
      (hodd : Odd nots → d ≤ d') :
      Relaxed nots (relation .precedence p q d) (relation .precedence p q d') :=
    .precedence (.timePoint p) (.timePoint q) heven hodd
  have hnegated : Relaxed 1 (or [relation .precedence x y 3, not (relation .precedence y x (-2))])
      (or [relation .precedence x y Int64.maxValue, not (relation .precedence y x (-7))]) :=
    .or_of_forall₂ (.cons (hprecedence (by decide) (by decide))
      (.cons (.not (hprecedence (by decide) (by decide))) .nil))
  have hrelaxed : Relaxed 0 (e 2 3 (-2)) (e Int64.minValue Int64.maxValue (-7)) :=
    .and_of_forall₂ (.cons (hprecedence (by decide) (by decide)) (.cons (.not hnegated) .nil))
  have hsatisfied : ((e 2 3 (-2)).isSatisfied s).outcome = .ok true := by decide
  exact ⟨hrelaxed, hsatisfied, (isSatisfied_relaxed s hrelaxed).1 hsatisfied⟩

end Expr

end SchedulingLogic

import SchedulingLogic.Proofs.Events
import SchedulingLogic.Proofs.Itinerary
import SchedulingLogic.Proofs.Typing

/-!
# Shifting time

Relations compare instants with each other, and not with a clock.  Where no constants take
part, moving all instants of a schedule by the same amount changes neither the truth value
nor the fault of an expression, as long as the moved instants are 64-bit integers.
-/

namespace SchedulingLogic

namespace Schedule

/-- Moves all instants by `k`. -/
def shift (s : Schedule) (k : Int) : Schedule where
  entries := s.entries.map fun entry => (entry.1, Int64.ofInt (entry.2.toInt + k))
  nodup_keys := by
    rw [List.map_map]
    exact s.nodup_keys

/-- No instant leaves the range of 64-bit integers when it is moved by `k`. -/
def CanShift (s : Schedule) (k : Int) : Prop :=
  ∀ entry ∈ s.entries,
    Int64.minValue.toInt ≤ entry.2.toInt + k ∧ entry.2.toInt + k ≤ Int64.maxValue.toInt

instance (s : Schedule) (k : Int) : Decidable (s.CanShift k) :=
  inferInstanceAs (Decidable (∀ entry ∈ s.entries, _))

variable {s : Schedule} {k : Int}

theorem lookup_map_value (f : Int64 → Int64) (key : TimePoint.Key)
    (entries : List (TimePoint.Key × Int64)) :
    (entries.map fun entry => (entry.1, f entry.2)).lookup key = (entries.lookup key).map f := by
  induction entries with
  | nil => rfl
  | cons entry rest ih =>
      rw [List.map_cons, lookup_cons_eq, lookup_cons_eq, ih]
      split <;> rfl

theorem get?_shift (p : TimePoint) :
    (s.shift k).get? p = (s.get? p).map fun v => Int64.ofInt (v.toInt + k) :=
  lookup_map_value (fun v => Int64.ofInt (v.toInt + k)) p.key s.entries

/-- A schedule that can be moved is moved exactly. -/
theorem exists_get?_shift (hk : s.CanShift k) {p : TimePoint} {v : Int64}
    (hv : s.get? p = some v) : ∃ w, (s.shift k).get? p = some w ∧ w.toInt = v.toInt + k := by
  obtain ⟨hmin, hmax⟩ := hk (p.key, v) (mem_of_lookup_eq_some hv)
  rw [Int64.toInt_minValue] at hmin
  rw [Int64.toInt_maxValue] at hmax
  refine ⟨Int64.ofInt (v.toInt + k), ?_, ?_⟩
  · rw [get?_shift, hv, Option.map_some]
  · exact Int64.toInt_ofInt_of_le hmin (Int.lt_of_le_sub_one hmax)

end Schedule

/-- Both sides of a comparison may be moved by the same amount. -/
theorem Relation.Kind.check_shift {kind : Kind} {delay x y x' y' : Int64} {k : Int}
    (hx : x'.toInt = x.toInt + k) (hy : y'.toInt = y.toInt + k) :
    kind.check delay x' y' = kind.check delay x y := by
  rw [Bool.eq_iff_iff, check_iff_relates, check_iff_relates, hx, hy]
  cases kind with
  | precedence =>
      simp only [Relates]
      omega
  | synchronization =>
      simp only [Relates]
      omega

namespace Expr

variable {s : Schedule} {k : Int}

/-- No constant occurs in the expression. -/
def IsConstantFree (e : Expr) : Prop := ∀ n, constant n ∉ e.preorder

theorem IsConstantFree.of_mem_args {c e : Expr} (h : e.IsConstantFree) (hc : c ∈ e.args) :
    c.IsConstantFree := by
  intro n hn
  exact h n (mem_preorder_of_mem_args hc hn)

/-- The same look-ups fail as before, so everything that is wrong stays so. -/
theorem walk_shift (e : Expr) : e.walk (s.shift k) = e.walk s := by
  have hvisits : Step.visits (s.shift k) = Step.visits s := by
    funext step
    cases step with
    | lookUp p => simp [Step.visits, ownFaults, Schedule.get?_shift]
    | _ => rfl
  rw [walk_eq_flatMap_itinerary, walk_eq_flatMap_itinerary, hvisits]

theorem faults_shift (e : Expr) : e.faults (s.shift k) = e.faults s := by
  rw [← filterMap_fault?_walk, ← filterMap_fault?_walk, walk_shift]

theorem instant_shift (hk : s.CanShift k) {e : Expr} (he : e.IsConstantFree)
    (hleaf : e.isLeaf = true) (hcovers : s.Covers e) :
    (e.instant (s.shift k)).toInt = (e.instant s).toInt + k := by
  cases e with
  | constant n => exact absurd (mem_preorder_self (constant n)) (he n)
  | timePoint p =>
      obtain ⟨v, hv⟩ := hcovers.exists_get?
      obtain ⟨w, hw, hshift⟩ := Schedule.exists_get?_shift hk hv
      rw [instant, instant, hw, hv]
      exact hshift
  | _ => simp [isLeaf] at hleaf

/-- Without faults all compared operands are points with instants, which move together. -/
theorem truth_shift (hk : s.CanShift k) {e : Expr} (he : e.IsConstantFree)
    (hfaults : e.faults s = []) : e.truth (s.shift k) = e.truth s := by
  induction e using inductionOn with
  | step e ih =>
      have hargs : ∀ c ∈ e.args, c.truth (s.shift k) = c.truth s := by
        intro c hc
        exact ih c hc (he.of_mem_args hc) (faults_eq_nil_of_mem_args hfaults hc)
      cases e with
      | constant n => rw [truth_of_isLeaf _ rfl, truth_of_isLeaf _ rfl]
      | timePoint p => rw [truth_of_isLeaf _ rfl, truth_of_isLeaf _ rfl]
      | relation kind a b delay =>
          obtain ⟨⟨hfirst, hx⟩, ⟨hsecond, hy⟩⟩ := faults_relation_eq_nil_iff.mp hfaults
          have ha := he.of_mem_args (c := a) (by simp [args])
          have hb := he.of_mem_args (c := b) (by simp [args])
          rw [truth_relation, truth_relation]
          exact Relation.Kind.check_shift
            (instant_shift hk ha hx (faults_eq_nil_iff.mp hfirst).2)
            (instant_shift hk hb hy (faults_eq_nil_iff.mp hsecond).2)
      | not a => rw [truth_not, truth_not, hargs a (by simp [args])]
      | and cs =>
          rw [truth_and, truth_and, Bool.eq_iff_iff, List.all_eq_true, List.all_eq_true]
          apply forall₂_congr
          intro c hc
          rw [hargs c hc]
      | or cs =>
          rw [truth_or, truth_or, Bool.eq_iff_iff, List.any_eq_true, List.any_eq_true]
          apply exists_congr
          intro c
          apply and_congr_right
          intro hc
          rw [hargs c hc]

/-- Without constants, an expression does not notice that all instants were moved. -/
theorem isSatisfied_shift (hk : s.CanShift k) {e : Expr} (he : e.IsConstantFree) :
    (e.isSatisfied (s.shift k)).outcome = (e.isSatisfied s).outcome := by
  rw [outcome_isSatisfied, outcome_isSatisfied, faults_shift]
  cases hf : (e.faults s).head? with
  | some f => rfl
  | none =>
      cases hleaf : e.isLeaf with
      | true =>
          rw [value_of_isLeaf _ hleaf, value_of_isLeaf _ hleaf]
          rfl
      | false =>
          rw [value_of_not_isLeaf _ hleaf, value_of_not_isLeaf _ hleaf,
            truth_shift hk he (List.head?_eq_none_iff.mp hf)]

/-- The instants are moved from the lowest to the highest 64-bit integer. -/
theorem isSatisfied_shift_full_range :
    let x : Interval := ⟨"x", "x"⟩
    let s : Schedule := Schedule.empty.place x Int64.minValue (Int64.minValue + 5)
    let k : Int := Int64.maxValue.toInt - (Int64.minValue + 5).toInt
    let e : Expr := or [not (relation .precedence (timePoint x.start) (timePoint x.finish) (-9)),
      relation .synchronization (timePoint x.finish) (timePoint x.start) (-5)]
    s.CanShift k ∧ e.IsConstantFree ∧ (s.shift k).get? x.finish = some Int64.maxValue ∧
      (e.isSatisfied (s.shift k)).outcome = .ok true ∧
      (e.isSatisfied (s.shift k)).outcome = (e.isSatisfied s).outcome := by
  intro x s k e
  have hk : s.CanShift k := by decide
  have he : e.IsConstantFree := by
    intro n
    simp [e, preorder, fold, foldEach]
  exact ⟨hk, he, by decide, by decide, isSatisfied_shift hk he⟩

end Expr

end SchedulingLogic

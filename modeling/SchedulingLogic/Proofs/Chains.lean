import SchedulingLogic.Proofs.Combinators

/-!
# Chains of precedence

Points may be chained by precedences, each point a delay before the next.  When the
conjunction of a chain is true, its first point comes before its last one by the sum of
all delays, whatever the partial sums are: the sum is taken over the integers.  So a chain
that leads back to its first point and has a positive sum is true under no schedule.
-/

namespace SchedulingLogic

/-- At least one precedence, each one starting at the point where the former has ended. -/
inductive Chain : TimePoint → TimePoint → Type
  | hop (p : TimePoint) (delay : Int64) (q : TimePoint) : Chain p q
  | cons (p : TimePoint) (delay : Int64) {q r : TimePoint} (rest : Chain q r) : Chain p r

namespace Chain

def relations {p r : TimePoint} : Chain p r → List Relation
  | hop p delay q => [p.before q delay]
  | @cons p delay q _ rest => p.before q delay :: rest.relations

/-- The sum of all delays, which need not be a 64-bit integer. -/
def total {p r : TimePoint} : Chain p r → Int
  | hop _ delay _ => delay.toInt
  | cons _ delay rest => delay.toInt + rest.total

def conjunction {p r : TimePoint} (c : Chain p r) : Expr := .and (c.relations.map Relation.toExpr)

end Chain

namespace Expr

variable {s : Schedule}

theorem isTrue_before_iff {p q : TimePoint} {delay : Int64} :
    (p.before q delay).toExpr.IsTrue s ↔
      ∃ x y, s.get? p = some x ∧ s.get? q = some y ∧ x.toInt + delay.toInt ≤ y.toInt := by
  simp only [IsTrue, evaluate, Traced.outcome_reportFailure, TimePoint.before,
    Relation.precedence, Relation.toExpr, run, TimePoint.evaluate,
    ← Relation.Kind.check_precedence_iff]
  cases s.get? p with
  | none => simp [Traced.fail]
  | some x =>
      cases s.get? q with
      | none => simp [Traced.fail, Traced.pure_eq]
      | some y => simp [Relation.Kind.compare, Traced.record, Traced.pure_eq]

end Expr

namespace Chain

variable {s : Schedule}

/-- Hop by hop, the instants grow by the delays. -/
theorem start_add_total_le {p r : TimePoint} (c : Chain p r)
    (h : ∀ relation ∈ c.relations, relation.toExpr.IsTrue s) :
    ∃ x z, s.get? p = some x ∧ s.get? r = some z ∧ x.toInt + c.total ≤ z.toInt := by
  induction c with
  | hop p delay q => exact Expr.isTrue_before_iff.mp (h _ List.mem_cons_self)
  | @cons p delay q r rest ih =>
      have hrelations : ∀ relation ∈ rest.relations, relation.toExpr.IsTrue s := by
        intro relation hmem
        exact h relation (List.mem_cons_of_mem _ hmem)
      obtain ⟨x, y, hx, hy, hfirst⟩ := Expr.isTrue_before_iff.mp (h _ List.mem_cons_self)
      obtain ⟨y', z, hy', hz, hrest⟩ := ih hrelations
      have heq : y' = y := Option.some.inj (hy'.symm.trans hy)
      refine ⟨x, z, hx, hz, ?_⟩
      calc
        x.toInt + (delay.toInt + rest.total) = x.toInt + delay.toInt + rest.total := by omega
        _ ≤ y.toInt + rest.total := Int.add_le_add_right hfirst rest.total
        _ ≤ z.toInt := heq ▸ hrest

theorem isTrue_conjunction_iff {p r : TimePoint} {c : Chain p r} :
    c.conjunction.IsTrue s ↔ ∀ relation ∈ c.relations, relation.toExpr.IsTrue s := by
  rw [conjunction, Expr.isTrue_and_iff, List.forall_mem_map]

/-- A chain that is true bounds the distance of its ends by the sum of the delays, so one
that returns to the end of the interval it came from cannot gain time. -/
theorem isTrue_conjunction_bounds {p r : TimePoint} (c : Chain p r) :
    (∀ s : Schedule, c.conjunction.IsTrue s →
        (∃ x z, s.get? p = some x ∧ s.get? r = some z ∧ x.toInt + c.total ≤ z.toInt) ∧
          ∀ delay : Int64, delay.toInt = c.total → (p.before r delay).toExpr.IsTrue s) ∧
      (p.interval = r.interval → p.endpoint = r.endpoint → 0 < c.total →
        ∀ s : Schedule, ¬ c.conjunction.IsTrue s) := by
  have hbound : ∀ s : Schedule, c.conjunction.IsTrue s →
      ∃ x z, s.get? p = some x ∧ s.get? r = some z ∧ x.toInt + c.total ≤ z.toInt := by
    intro s h
    exact c.start_add_total_le (isTrue_conjunction_iff.mp h)
  refine ⟨?_, ?_⟩
  · intro s h
    refine ⟨hbound s h, ?_⟩
    intro delay hdelay
    rw [Expr.isTrue_before_iff, hdelay]
    exact hbound s h
  · intro hinterval hendpoint hpos s h
    obtain ⟨x, z, hx, hz, hle⟩ := hbound s h
    have hkey : p.key = r.key := TimePoint.key_eq_iff.mpr ⟨hinterval, hendpoint⟩
    have hxz : s.get? p = s.get? r := congrArg (List.lookup · s.entries) hkey
    have heq : x = z := by rwa [hx, hz, Option.some.injEq] at hxz
    rw [heq] at hle
    omega

/-- Two hops of `2 ^ 63 - 1` together are no 64-bit delay, but with the hop of `-2 ^ 63` that
follows they are one.  A small gain on the way back to the start is impossible. -/
theorem isTrue_conjunction_bounds_wide :
    let p : TimePoint := ⟨"p", "p", .start⟩
    let q : TimePoint := ⟨"q", "q", .start⟩
    let r : TimePoint := ⟨"r", "r", .start⟩
    let s : Schedule := (((Schedule.empty.set p Int64.minValue).2.set q (-1)).2.set r
      Int64.maxValue).2
    let out : Chain p r :=
      .cons p Int64.maxValue (.cons q Int64.maxValue (.hop r Int64.minValue r))
    let back : Chain p (p.relabel "again") := .cons p 5 (.hop q (-4) (p.relabel "again"))
    (out.conjunction.IsTrue s ∧ out.total = (Int64.maxValue - 1).toInt ∧
        (p.before r (Int64.maxValue - 1)).toExpr.IsTrue s) ∧
      (p.interval = (p.relabel "again").interval ∧ p.endpoint = (p.relabel "again").endpoint ∧
        0 < back.total ∧ ¬ back.conjunction.IsTrue s) := by
  intro p q r s out back
  have htrue : out.conjunction.IsTrue s := by decide
  have htotal : (Int64.maxValue - 1).toInt = out.total := by decide
  have hpos : 0 < back.total := by decide
  exact ⟨⟨htrue, htotal.symm, ((isTrue_conjunction_bounds out).1 s htrue).2 _ htotal⟩,
    rfl, rfl, hpos, (isTrue_conjunction_bounds back).2 rfl rfl hpos s⟩

end Chain

end SchedulingLogic

import SchedulingLogic.Evaluation
import SchedulingLogic.Expr.Traversal

/-!
# Substitution

Expressions may be put in the place of points.  If each of them runs under one schedule
like its point under another, then the whole expression does, with the same events and the
same fault.  Setting a point is the case of constants put in its place, and the case in
which each point stays where it is says that a run depends on the points that occur only.
-/

namespace SchedulingLogic

namespace Expr

mutual

/-- Puts an expression in the place of each point. -/
def replacePoints (f : TimePoint → Expr) : Expr → Expr
  | constant n => constant n
  | timePoint p => f p
  | relation k a b delay => relation k (replacePoints f a) (replacePoints f b) delay
  | not a => not (replacePoints f a)
  | and cs => and (replacePointsEach f cs)
  | or cs => or (replacePointsEach f cs)

def replacePointsEach (f : TimePoint → Expr) : List Expr → List Expr
  | [] => []
  | c :: cs => replacePoints f c :: replacePointsEach f cs

end

theorem replacePointsEach_eq_map (f : TimePoint → Expr) (cs : List Expr) :
    replacePointsEach f cs = cs.map (replacePoints f) := by
  induction cs with
  | nil => rfl
  | cons c cs ih => rw [replacePointsEach, ih, List.map_cons]

@[simp] theorem replacePoints_and (f : TimePoint → Expr) (cs : List Expr) :
    (and cs).replacePoints f = and (cs.map (replacePoints f)) := by
  rw [replacePoints, replacePointsEach_eq_map]

@[simp] theorem replacePoints_or (f : TimePoint → Expr) (cs : List Expr) :
    (or cs).replacePoints f = or (cs.map (replacePoints f)) := by
  rw [replacePoints, replacePointsEach_eq_map]

theorem replacePoints_timePoint (e : Expr) : e.replacePoints timePoint = e := by
  induction e using inductionOn with
  | step e ih =>
      have hargs : e.args.map (replacePoints timePoint) = e.args := by
        rw [List.map_congr_left ih, List.map_id']
      cases e with
      | constant n => rfl
      | timePoint p => rfl
      | relation k a b delay =>
          rw [replacePoints, ih a (by simp [args]), ih b (by simp [args])]
      | not a => rw [replacePoints, ih a (by simp [args])]
      | and cs => exact (replacePoints_and timePoint cs).trans (congrArg and hargs)
      | or cs => exact (replacePoints_or timePoint cs).trans (congrArg or hargs)

/-- The integer in the place of a point, under whichever labels the point occurs. -/
def substitute (p : TimePoint) (v : Int64) (e : Expr) : Expr :=
  e.replacePoints fun q =>
    if q.interval = p.interval ∧ q.endpoint = p.endpoint then constant v else timePoint q

variable {s t : Schedule}

theorem runEach_map {f : Expr → Expr} (node : String) {cs : List Expr}
    (h : ∀ c ∈ cs, (f c).run s = c.run t) :
    runEach s node (cs.map f) = runEach t node cs := by
  induction cs with
  | nil => rfl
  | cons c cs ih =>
      have hcs := ih fun c' hc' => h c' (List.mem_cons_of_mem c hc')
      rw [List.map_cons, runEach, runEach, h c List.mem_cons_self, hcs]

/-- A run sees an expression in the place of a point only through its run. -/
theorem run_replacePoints {f : TimePoint → Expr} {e : Expr}
    (h : ∀ p ∈ e.timePoints, (f p).run s = (timePoint p).run t) :
    (e.replacePoints f).run s = e.run t := by
  induction e using inductionOn with
  | step e ih =>
      have hargs : ∀ c ∈ e.args, (c.replacePoints f).run s = c.run t := by
        intro c hc
        apply ih c hc
        intro p hp
        exact h p (mem_timePoints_of_mem_args hc hp)
      cases e with
      | constant n => rfl
      | timePoint p =>
          exact h p (mem_timePoints_self p)
      | relation k a b delay =>
          have ha := hargs a (by simp [args])
          have hb := hargs b (by simp [args])
          rw [replacePoints, run, run, ha, hb]
      | not a => rw [replacePoints, run, run, hargs a (by simp [args])]
      | and cs =>
          have hcs : ∀ c ∈ cs, (c.replacePoints f).run s = c.run t := hargs
          rw [replacePoints_and, run, run, runEach_map "And" hcs]
      | or cs =>
          have hcs : ∀ c ∈ cs, (c.replacePoints f).run s = c.run t := hargs
          rw [replacePoints_or, run, run, runEach_map "Or" hcs]

theorem run_timePoint_set (p q : TimePoint) (v : Int64) :
    (timePoint q).run (s.set p v).2 =
      run s (if q.interval = p.interval ∧ q.endpoint = p.endpoint then constant v
        else timePoint q) := by
  rw [run, TimePoint.evaluate, Schedule.get?_set]
  by_cases hend : q.interval = p.interval ∧ q.endpoint = p.endpoint
  · rw [if_pos (TimePoint.key_eq_iff.mpr hend), if_pos hend, run]
  · have hkey : q.key ≠ p.key := fun h => hend (TimePoint.key_eq_iff.mp h)
    rw [if_neg hkey, if_neg hend, run, TimePoint.evaluate]

/-- Setting a point comes to the same as putting its instant in the place of the point. -/
theorem evaluate_set (s : Schedule) (p : TimePoint) (v : Int64) (e : Expr) :
    e.evaluate (s.set p v).2 = (e.substitute p v).evaluate s := by
  have hrun : (e.substitute p v).run s = e.run (s.set p v).2 := by
    apply run_replacePoints
    intro q _
    exact (run_timePoint_set p q v).symm
  rw [evaluate, evaluate, hrun]

theorem run_congr {e : Expr} (h : ∀ p ∈ e.timePoints, s.get? p = t.get? p) :
    e.run s = e.run t := by
  have hpoints : ∀ p ∈ e.timePoints, (timePoint p).run s = (timePoint p).run t := by
    intro p hp
    rw [run, run, TimePoint.evaluate, TimePoint.evaluate, h p hp]
  have hrun := run_replacePoints hpoints
  rwa [replacePoints_timePoint] at hrun

/-- Schedules that agree on the points of an expression are the same to it. -/
theorem evaluate_congr {e : Expr} (h : ∀ p ∈ e.timePoints, s.get? p = t.get? p) :
    e.evaluate s = e.evaluate t ∧ e.isSatisfied s = e.isSatisfied t := by
  have hevaluate : e.evaluate s = e.evaluate t := by rw [evaluate, evaluate, run_congr h]
  refine ⟨hevaluate, ?_⟩
  rw [isSatisfied, isSatisfied, hevaluate]

/-- The points are set in another order and another point is set too; one is missing. -/
theorem evaluate_congr_other_entries :
    let x : Interval := ⟨"x", "x"⟩
    let y : Interval := ⟨"y", "y"⟩
    let e : Expr := and [relation .precedence (timePoint x.finish) (timePoint y.start) 2,
      not (timePoint y.finish), timePoint x.start]
    let s : Schedule := ((Schedule.empty.set x.finish 10).2.set y.start 12).2
    let t : Schedule := (((Schedule.empty.set ⟨"z", "y", .finish⟩ 7).2.set y.start 12).2.set
      ⟨"x", "other", .finish⟩ 10).2
    (∀ p ∈ e.timePoints, s.get? p = t.get? p) ∧ e.evaluate s = e.evaluate t ∧
      e.isSatisfied s = e.isSatisfied t :=
  ⟨by decide, evaluate_congr (by decide)⟩

end Expr

end SchedulingLogic

import SchedulingLogic.Proofs.Events
import SchedulingLogic.Proofs.Itinerary
import SchedulingLogic.Proofs.Substitution
import SchedulingLogic.Proofs.Typing

/-!
# Extending a schedule

A schedule extends another one if it keeps its instants and perhaps assigns more.  A run
under the extension takes the same steps and passes all steps that were passed before, so
its first fault is the same unless that was a missing instant which is there now.
-/

namespace SchedulingLogic

namespace Schedule

/-- `t` keeps all instants of `s`. -/
def Extends (t s : Schedule) : Prop := ∀ p v, s.get? p = some v → t.get? p = some v

theorem extends_set {s : Schedule} {p : TimePoint} (h : s.get? p = none) (v : Int64) :
    (s.set p v).2.Extends s := by
  intro q w hq
  rw [get?_set]
  by_cases hkey : q.key = p.key
  · have hp : s.get? p = some w := by rwa [get?, ← hkey]
    simp [h] at hp
  · rwa [if_neg hkey]

end Schedule

variable {s t : Schedule}

namespace Step

open Visit

/-- The steps either end in the same way, or stop where an instant was missing. -/
theorem walk_cases_of_extends (h : t.Extends s) (steps : List Step) :
    (((steps.flatMap (visits t)).filterMap fault?).head? =
          ((steps.flatMap (visits s)).filterMap fault?).head? ∧
        completed (steps.flatMap (visits t)) = completed (steps.flatMap (visits s))) ∨
      ∃ p, (steps.filterMap point?).find? s.lacks = some p ∧ t.get? p ≠ none ∧
        ((steps.flatMap (visits s)).filterMap fault?).head? = some (.unassigned p.text) ∧
        completed (steps.flatMap (visits s)) <+: completed (steps.flatMap (visits t)) := by
  induction steps with
  | nil => exact Or.inl ⟨rfl, rfl⟩
  | cons x steps ih =>
      rw [List.flatMap_cons, List.flatMap_cons]
      cases x with
      | lookUp p =>
          cases hp : s.get? p with
          | some v =>
              rw [visits_lookUp_of_eq_some hp, visits_lookUp_of_eq_some (h p v hp)]
              simpa [point?, Schedule.lacks, hp] using ih
          | none =>
              rw [visits_lookUp_of_eq_none hp]
              cases hq : t.get? p with
              | none =>
                  rw [visits_lookUp_of_eq_none hq]
                  exact Or.inl ⟨rfl, rfl⟩
              | some w =>
                  -- The one place where the two runs part: the first stops, the second goes on.
                  refine Or.inr ⟨p, ?_, ?_, rfl, List.nil_prefix⟩
                  · simp [point?, Schedule.lacks, hp]
                  · simp [hq]
      | check node c =>
          cases hf : node.mismatch c with
          | nil =>
              rw [visits, visits, hf]
              exact ih
          | cons f fs =>
              rw [visits, visits, hf]
              exact Or.inl ⟨rfl, rfl⟩
      | compare r =>
          rcases ih with ⟨hhead, hdone⟩ | ⟨p, hfirst, hp, hhead, hdone⟩
          · exact Or.inl ⟨hhead, congrArg (r :: ·) hdone⟩
          · exact Or.inr ⟨p, hfirst, hp, hhead, (List.prefix_cons_inj r).mpr hdone⟩

end Step

theorem Schedule.get?_eq_of_covers {e : Expr} (h : t.Extends s) (hcovers : s.Covers e) :
    ∀ p ∈ e.timePoints, s.get? p = t.get? p := by
  intro p hp
  obtain ⟨v, hv⟩ := Option.isSome_iff_exists.mp (hcovers p hp)
  rw [hv, h p v hv]

namespace Expr

open Visit

theorem run_eq_of_extends {e : Expr} (h : t.Extends s) (hfaults : e.faults s = []) :
    e.run s = e.run t :=
  run_congr (Schedule.get?_eq_of_covers h (faults_eq_nil_iff.mp hfaults).2)

theorem instant_eq_of_extends {e : Expr} (h : t.Extends s) (hcovers : s.Covers e) :
    e.instant s = e.instant t := by
  cases e with
  | timePoint p =>
      obtain ⟨v, hv⟩ := hcovers.exists_get?
      rw [instant, instant, hv, h p v hv]
  | _ => rfl

theorem event_eq_of_extends {r : Relation} (h : t.Extends s) (hr : r.toExpr.faults s = []) :
    r.event s = r.event t := by
  obtain ⟨⟨hfirst, _⟩, ⟨hsecond, _⟩⟩ := faults_relation_eq_nil_iff.mp hr
  have hx := instant_eq_of_extends h (faults_eq_nil_iff.mp hfirst).2
  have hy := instant_eq_of_extends h (faults_eq_nil_iff.mp hsecond).2
  rw [Relation.event, Relation.event, hx, hy]

/-- An evaluation under an extension ends in the same way, or the fault was that of a point
which has an instant now. -/
theorem walk_cases_of_extends (h : t.Extends s) (e : Expr) :
    ((e.faults t).head? = (e.faults s).head? ∧
        completed (e.walk t) = completed (e.walk s)) ∨
      ∃ p, e.firstMissing? s = some p ∧ t.get? p ≠ none ∧
        (e.faults s).head? = some (.unassigned p.text) ∧
        completed (e.walk s) <+: completed (e.walk t) := by
  have hsteps := Step.walk_cases_of_extends h e.itinerary
  rwa [← walk_eq_flatMap_itinerary, ← walk_eq_flatMap_itinerary, filterMap_fault?_walk,
    filterMap_fault?_walk, filterMap_point?_itinerary] at hsteps

theorem events_run_prefix_of_extends (h : t.Extends s) (e : Expr) :
    (e.run s).events <+: (e.run t).events := by
  have hdone : completed (e.walk s) <+: completed (e.walk t) := by
    rcases walk_cases_of_extends h e with ⟨_, heq⟩ | ⟨_, _, _, _, hprefix⟩
    · exact heq ▸ List.prefix_rfl
    · exact hprefix
  have hevents : (completed (e.walk s)).map (Relation.event s) =
      (completed (e.walk s)).map (Relation.event t) := by
    apply List.map_congr_left
    intro r hr
    exact event_eq_of_extends h (faults_eq_nil_of_mem_completed hr)
  rw [events_run, events_run, hevents]
  exact hdone.map _

/-- Further instants change neither a value nor a mismatch of types, nor the fault of a point
that has no instant still, and all comparisons made before are made again at the start. -/
theorem evaluate_extends (h : t.Extends s) (e : Expr) :
    (∀ v, (e.evaluate s).outcome = .ok v → (e.evaluate t).outcome = .ok v) ∧
      (∀ node expected found,
        (e.evaluate s).outcome = .error (.typeMismatch node expected found) →
          (e.evaluate t).outcome = .error (.typeMismatch node expected found)) ∧
      (∀ text, (e.evaluate s).outcome = .error (.unassigned text) →
        ∃ p, e.firstMissing? s = some p ∧ p.text = text ∧
          (t.get? p = none → (e.evaluate t).outcome = .error (.unassigned text))) ∧
      ((e.evaluate s).events.filter fun event => event.level = "TRACE") <+:
        (e.evaluate t).events.filter fun event => event.level = "TRACE" := by
  simp only [outcome_eq_error_iff]
  refine ⟨?_, ?_, ?_, ?_⟩
  · intro v hv
    have hrun := run_eq_of_extends h ((outcome_eq_ok_iff s).mp hv).1
    rwa [evaluate, hrun] at hv
  · intro node expected found hs
    rcases walk_cases_of_extends h e with ⟨hhead, _⟩ | ⟨p, _, _, hhead, _⟩
    · rw [hhead, hs]
    · simp [hs] at hhead
  · intro text hs
    -- Points may share a text, so the point itself decides whether the fault is mended.
    obtain ⟨p, hp, htext⟩ := firstMissing?_of_head?_faults hs
    refine ⟨p, hp, htext, ?_⟩
    intro hnone
    rcases walk_cases_of_extends h e with ⟨hhead, _⟩ | ⟨q, hq, hsome, _, _⟩
    · rw [hhead, hs]
    · have hqp : q = p := Option.some.inj (hq.symm.trans hp)
      exact absurd (hqp ▸ hnone) hsome
  · rw [traces_evaluate, traces_evaluate]
    exact events_run_prefix_of_extends h e

/-- With one instant more, the same comparison is recorded and another point is missing. -/
theorem evaluate_extends_moves_fault :
    let x : Interval := ⟨"x", "x"⟩
    let y : Interval := ⟨"y", "y"⟩
    let e : Expr := and [relation .precedence (timePoint x.finish) (timePoint y.start) 2,
      not (relation .synchronization (timePoint y.finish) (timePoint ⟨"z", "z", .start⟩) (-1)),
      constant 3]
    let s : Schedule := ((Schedule.empty.set x.finish 10).2.set y.start 12).2
    let t : Schedule := (s.set y.finish 20).2
    t.Extends s ∧ (e.evaluate s).outcome = .error (.unassigned "y.end_time") ∧
      (e.evaluate t).outcome = .error (.unassigned "z.start_time") ∧
      ((e.evaluate s).events.filter fun event => event.level = "TRACE") =
        [.compared .precedence 10 12 2 true] ∧
      ((e.evaluate s).events.filter fun event => event.level = "TRACE") <+:
        (e.evaluate t).events.filter fun event => event.level = "TRACE" := by
  intro x y e s t
  have h : t.Extends s := Schedule.extends_set (by decide) 20
  exact ⟨h, by decide, by decide, by decide, (evaluate_extends h e).2.2.2⟩

end Expr

end SchedulingLogic

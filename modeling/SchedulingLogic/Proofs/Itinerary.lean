import SchedulingLogic.Proofs.Walk

/-!
# The itinerary of an evaluation

Which points are looked up, which operands are checked and which relations are compared,
and in which order, is settled by the expression alone.  A schedule only decides which of
the look-ups fail.  The points are looked up from left to right, so that a missing instant
that ends a run is the one of the first point without any.
-/

namespace SchedulingLogic

inductive Step where
  | lookUp (point : TimePoint)
  /-- The type of an operand is checked for its node. -/
  | check (node operand : Expr)
  | compare (relation : Relation)

namespace Step

def point? : Step → Option TimePoint
  | lookUp p => some p
  | check .. | compare _ => none

/-- What the step contributes to a walk under the schedule. -/
def visits (s : Schedule) : Step → List Visit
  | lookUp p => ((Expr.timePoint p).ownFaults s).map .fault
  | check node c => (node.mismatch c).map .fault
  | compare r => [.relation r]

theorem visits_lookUp_of_eq_some {s : Schedule} {p : TimePoint} {v : Int64}
    (h : s.get? p = some v) : (lookUp p).visits s = [] := by
  simp [visits, Expr.ownFaults, h]

theorem visits_lookUp_of_eq_none {s : Schedule} {p : TimePoint} (h : s.get? p = none) :
    (lookUp p).visits s = [.fault (.unassigned p.text)] := by
  simp [visits, Expr.ownFaults, h]

end Step

/-- Whether the point has no instant. -/
def Schedule.lacks (s : Schedule) (p : TimePoint) : Bool := (s.get? p).isNone

namespace Expr

/-- The steps of an evaluation: each operand is checked right after its own steps, and a
relation is compared when both operands are done. -/
def itinerary (e : Expr) : List Step :=
  e.fold fun node below =>
    node.point?.toList.map .lookUp ++
      (node.args.zipWith (fun c steps => steps ++ [.check node c]) below).flatten ++
      node.relation?.toList.map .compare

/-- The first point, from left to right, that has no instant.  A run which ends for want of an
instant ends at this point. -/
def firstMissing? (s : Schedule) (e : Expr) : Option TimePoint := e.timePoints.find? s.lacks

theorem itinerary_eq (e : Expr) :
    e.itinerary = e.point?.toList.map .lookUp ++
      (e.args.flatMap fun c => c.itinerary ++ [.check e c]) ++
      e.relation?.toList.map .compare := by
  rw [itinerary, fold_eq, List.zipWith_map_right, List.zipWith_self, List.flatMap_def]
  rfl

/-- The points that are looked up are the points of the expression, in their order. -/
theorem filterMap_point?_itinerary (e : Expr) :
    e.itinerary.filterMap Step.point? = e.timePoints := by
  induction e using inductionOn with
  | step e ih =>
      have hown : (e.point?.toList.map Step.lookUp).filterMap Step.point? = e.point?.toList := by
        cases e.point? <;> rfl
      have hroot : (e.relation?.toList.map Step.compare).filterMap Step.point? = [] := by
        cases e.relation? <;> rfl
      rw [itinerary_eq, timePoints_eq, List.filterMap_append, List.filterMap_append, hown, hroot,
        List.append_nil, List.filterMap_flatMap]
      congr 1
      apply List.flatMap_congr
      intro c hc
      rw [List.filterMap_append, ih c hc]
      exact List.append_nil _

/-- A walk consists of what the steps of the itinerary contribute. -/
theorem walk_eq_flatMap_itinerary (s : Schedule) (e : Expr) :
    e.walk s = e.itinerary.flatMap (Step.visits s) := by
  induction e using inductionOn with
  | step e ih =>
      have hown : (e.point?.toList.map Step.lookUp).flatMap (Step.visits s) =
          (e.ownFaults s).map .fault := by
        cases e with
        | timePoint p => exact List.flatMap_singleton _ _
        | _ => rfl
      have hroot : (e.relation?.toList.map Step.compare).flatMap (Step.visits s) =
          e.relation?.toList.map .relation := by
        cases e.relation? <;> rfl
      rw [walk_eq, itinerary_eq, List.flatMap_append, List.flatMap_append, hown, hroot,
        List.flatMap_assoc]
      congr 2
      apply List.flatMap_congr
      intro c hc
      rw [List.flatMap_append, ih c hc, List.flatMap_singleton]
      rfl

theorem ne_unassigned_of_mem_mismatch {node c : Expr} {f : Fault} (h : f ∈ node.mismatch c)
    (text : String) : f ≠ .unassigned text := by
  rintro rfl
  cases node with
  | relation k a b delay =>
      rw [mismatch_relation] at h
      simp [unlessInteger] at h
  | _ => simp [mismatch, unlessBoolean] at h

end Expr

namespace Step

open Visit

/-- If the first fault is a missing instant, it is the one of the first point that has none. -/
theorem find?_lacks_of_head?_fault {s : Schedule} {text : String} {steps : List Step}
    (h : ((steps.flatMap (visits s)).filterMap fault?).head? = some (.unassigned text)) :
    ∃ p, (steps.filterMap point?).find? s.lacks = some p ∧ p.text = text := by
  induction steps with
  | nil => simp at h
  | cons x steps ih =>
      rw [List.flatMap_cons] at h
      cases x with
      | lookUp p =>
          cases hp : s.get? p with
          | some v =>
              rw [visits_lookUp_of_eq_some hp] at h
              obtain ⟨q, hq, htext⟩ := ih h
              refine ⟨q, ?_, htext⟩
              simpa [point?, Schedule.lacks, hp] using hq
          | none =>
              rw [visits_lookUp_of_eq_none hp] at h
              refine ⟨p, ?_, ?_⟩
              · simp [point?, Schedule.lacks, hp]
              · simpa [fault?] using h
      | check node c =>
          cases hf : node.mismatch c with
          | nil =>
              rw [visits, hf] at h
              exact ih h
          | cons f fs =>
              have hmem : f ∈ node.mismatch c := hf ▸ List.mem_cons_self
              have heq : f = .unassigned text := by simpa [visits, hf, fault?] using h
              exact absurd heq (Expr.ne_unassigned_of_mem_mismatch hmem text)
      | compare r => exact ih h

end Step

theorem Expr.firstMissing?_of_head?_faults {s : Schedule} {e : Expr} {text : String}
    (h : (e.faults s).head? = some (.unassigned text)) :
    ∃ p, e.firstMissing? s = some p ∧ p.text = text := by
  rw [← filterMap_fault?_walk, walk_eq_flatMap_itinerary] at h
  rw [firstMissing?, ← filterMap_point?_itinerary]
  exact Step.find?_lacks_of_head?_fault h

end SchedulingLogic

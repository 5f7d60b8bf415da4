import Mathlib.Data.List.Forall2
import SchedulingLogic.Proofs.Walk

/-!
# Events of an evaluation

An evaluation records the relations that its walk completes before the first fault,
in the order of the walk.  Without faults these are all relations of the expression,
and their order is the pre-order, since operands of relations are leaves then.
-/

namespace SchedulingLogic

namespace Visit

theorem completed_map_fault (fs : List Fault) : completed (fs.map fault) = [] := by
  cases fs <;> rfl

theorem completed_of_no_fault {visits : List Visit} (h : visits.filterMap fault? = []) :
    completed visits = visits.filterMap relation? := by
  induction visits with
  | nil => rfl
  | cons x visits ih =>
      cases x with
      | fault f => simp [fault?] at h
      | relation r =>
          have hrest : visits.filterMap fault? = [] := by simpa [fault?] using h
          rw [completed, ih hrest]
          rfl

theorem mem_completed_append {xs ys : List Visit} {r : Relation}
    (h : r ∈ completed (xs ++ ys)) :
    r ∈ completed xs ∨ (xs.filterMap fault? = [] ∧ r ∈ completed ys) := by
  induction xs with
  | nil => exact Or.inr ⟨rfl, h⟩
  | cons x xs ih =>
      cases x with
      | fault f => simp [completed] at h
      | relation r' =>
          rcases List.mem_cons.mp h with rfl | h
          · exact Or.inl List.mem_cons_self
          · rcases ih h with hxs | ⟨hnil, hys⟩
            · exact Or.inl (List.mem_cons_of_mem r' hxs)
            · exact Or.inr ⟨hnil, hys⟩

theorem completed_append_congr (xs : List Visit) {ys zs : List Visit}
    (h : completed ys = completed zs) : completed (xs ++ ys) = completed (xs ++ zs) := by
  induction xs with
  | nil => exact h
  | cons x xs ih =>
      cases x with
      | fault f => rfl
      | relation r => exact congrArg (r :: ·) ih

theorem mem_completed_flatMap {α : Type} {xs : List α} {f : α → List Visit} {r : Relation}
    (h : r ∈ completed (xs.flatMap f)) : ∃ x ∈ xs, r ∈ completed (f x) := by
  induction xs with
  | nil => simp [completed] at h
  | cons x xs ih =>
      rw [List.flatMap_cons] at h
      rcases mem_completed_append h with hx | ⟨_, hxs⟩
      · exact ⟨x, List.mem_cons_self, hx⟩
      · obtain ⟨y, hy, hr⟩ := ih hxs
        exact ⟨y, List.mem_cons_of_mem x hy, hr⟩

end Visit

namespace Expr

open Visit

variable {s : Schedule}

theorem faults_relation_eq_nil_iff {k : Relation.Kind} {a b : Expr} {delay : Int64} :
    (relation k a b delay).faults s = [] ↔
      (a.faults s = [] ∧ a.isLeaf = true) ∧ (b.faults s = [] ∧ b.isLeaf = true) := by
  rw [faults_eq_nil_iff_args]
  simp [ownFaults, args, mismatch_relation, unlessInteger_eq_nil_iff]

/-- A relation that the walk completes before the first fault has no faults itself. -/
theorem faults_eq_nil_of_mem_completed {e : Expr} {r : Relation}
    (h : r ∈ completed (e.walk s)) : r.toExpr.faults s = [] := by
  induction e using inductionOn with
  | step e ih =>
      have hwalk := filterMap_fault?_walk s e
      rw [walk_eq] at h hwalk
      rcases mem_completed_append h with hbelow | ⟨hnil, hroot⟩
      · rcases mem_completed_append hbelow with hown | ⟨_, hargs⟩
        · simp [completed_map_fault] at hown
        · obtain ⟨c, hc, hmem⟩ := mem_completed_flatMap hargs
          rcases mem_completed_append hmem with hmem | ⟨_, hmis⟩
          · exact ih c hc hmem
          · simp [completed_map_fault] at hmis
      · cases hr : e.relation? with
        | none => simp [hr, completed] at hroot
        | some r' =>
            have heq : r = r' := by simpa [hr, completed] using hroot
            rw [hr, List.filterMap_append, hnil] at hwalk
            rw [heq, ← relation?_eq_some_iff.mp hr, ← hwalk]
            rfl

theorem relations_of_isLeaf {e : Expr} (h : e.isLeaf = true) : e.relations = [] := by
  rw [relations_eq, args_eq_nil_of_isLeaf h]
  cases e <;> simp_all [relation?, isLeaf]

theorem filterMap_relation?_walk (e : Expr) :
    (e.walk s).filterMap Visit.relation? =
      (e.args.flatMap fun c => (c.walk s).filterMap Visit.relation?) ++ e.relation?.toList := by
  have hfaults : ∀ fs : List Fault, (fs.map Visit.fault).filterMap Visit.relation? = [] := by
    intro fs
    simp [List.filterMap_map, Function.comp_def, Visit.relation?]
  have hroot : (e.relation?.toList.map Visit.relation).filterMap Visit.relation? =
      e.relation?.toList := by
    cases e.relation? <;> rfl
  rw [walk_eq, List.filterMap_append, List.filterMap_append, hfaults, hroot,
    List.filterMap_flatMap]
  simp only [List.filterMap_append, hfaults, List.append_nil, List.nil_append]

theorem faults_eq_nil_of_mem_args {c e : Expr} (h : e.faults s = []) (hc : c ∈ e.args) :
    c.faults s = [] := by
  exact (((faults_eq_nil_iff_args s).mp h).2 c hc).1

/-- Without faults the walk meets the relations in pre-order. -/
theorem completed_walk {e : Expr} (h : e.faults s = []) :
    completed (e.walk s) = e.relations := by
  rw [completed_of_no_fault ((filterMap_fault?_walk s e).trans h)]
  induction e using inductionOn with
  | step e ih =>
      have hargs : (e.args.flatMap fun c => (c.walk s).filterMap Visit.relation?) =
          e.args.flatMap relations := by
        apply List.flatMap_congr
        intro c hc
        exact ih c hc (faults_eq_nil_of_mem_args h hc)
      rw [filterMap_relation?_walk, hargs, relations_eq]
      cases hr : e.relation? with
      | none => simp
      | some r =>
          -- Only here do the two orders differ, and here the operands are leaves.
          have he := relation?_eq_some_iff.mp hr
          obtain ⟨⟨_, hfirst⟩, ⟨_, hsecond⟩⟩ := faults_relation_eq_nil_iff.mp (he ▸ h)
          have hnil : e.args.flatMap relations = [] := by
            rw [he, args_toExpr]
            simp [Relation.args, relations_of_isLeaf hfirst, relations_of_isLeaf hsecond]
          rw [hnil]
          rfl

end Expr

/-- The event tells the relation and the integers that its operands evaluate to. -/
def Relation.RecordedAs (s : Schedule) (r : Relation) (event : Event) : Prop :=
  ∃ x y, (r.first.evaluate s).outcome = .ok (.int x) ∧
    (r.second.evaluate s).outcome = .ok (.int y) ∧
    event = .compared r.kind x y r.delay (r.check x y)

theorem Relation.recordedAs_event {s : Schedule} {r : Relation} (h : r.toExpr.faults s = []) :
    r.RecordedAs s (r.event s) := by
  obtain ⟨⟨hfirst, hx⟩, ⟨hsecond, hy⟩⟩ := Expr.faults_relation_eq_nil_iff.mp h
  refine ⟨r.first.instant s, r.second.instant s, ?_, ?_, rfl⟩
  · exact (Expr.outcome_eq_int_iff s).mpr ⟨hfirst, hx, rfl⟩
  · exact (Expr.outcome_eq_int_iff s).mpr ⟨hsecond, hy, rfl⟩

namespace Expr

open Visit

variable (s : Schedule)

theorem recordedAs_events_run (e : Expr) :
    List.Forall₂ (Relation.RecordedAs s) (completed (e.walk s)) (e.run s).events := by
  rw [events_run, List.forall₂_map_right_iff, List.forall₂_same]
  intro r hr
  exact Relation.recordedAs_event (faults_eq_nil_of_mem_completed hr)

theorem level_of_mem_events_run {e : Expr} {event : Event} (h : event ∈ (e.run s).events) :
    event.level = "TRACE" := by
  rw [events_run] at h
  obtain ⟨r, _, rfl⟩ := List.mem_map.mp h
  rfl

theorem events_evaluate_of_ok {e : Expr} {v : Value} (h : (e.evaluate s).outcome = .ok v) :
    (e.evaluate s).events = (e.run s).events := by
  rw [outcome_evaluate] at h
  rw [evaluate, Traced.reportFailure, h]

theorem events_evaluate_of_error {e : Expr} {f : Fault}
    (h : (e.evaluate s).outcome = .error f) :
    (e.evaluate s).events = (e.run s).events ++ [.failed f] := by
  rw [outcome_evaluate] at h
  rw [evaluate, Traced.reportFailure, h]

/-- The comparisons that an evaluation records are all that its run records. -/
theorem traces_evaluate (e : Expr) :
    ((e.evaluate s).events.filter fun event => event.level = "TRACE") = (e.run s).events := by
  have hrun : (e.run s).events.filter (fun event => event.level = "TRACE") =
      (e.run s).events := by
    rw [List.filter_eq_self]
    intro event hevent
    exact decide_eq_true (level_of_mem_events_run s hevent)
  cases h : (e.evaluate s).outcome with
  | ok v => rw [events_evaluate_of_ok s h, hrun]
  | error f =>
      rw [events_evaluate_of_error s h, List.filter_append, hrun]
      exact List.append_nil _

theorem events_expectBool (node : String) (v : Value) :
    (Value.expectBool node v).events = [] := by
  cases v <;> rfl

theorem events_isSatisfied (e : Expr) : (e.isSatisfied s).events = (e.evaluate s).events := by
  rw [isSatisfied]
  obtain ⟨events, _ | v⟩ := e.evaluate s
  · rfl
  · rw [Traced.mk_ok_bind, events_expectBool, List.append_nil]

/-- The recorded comparisons are those of the relations done before the first fault.  A
success records all relations in pre-order and no failure; a failure is recorded once,
last, and with its text. -/
theorem events_evaluate_spec (e : Expr) :
    List.Forall₂ (Relation.RecordedAs s) (completed (e.walk s))
        ((e.evaluate s).events.filter fun event => event.level = "TRACE") ∧
      (∀ v, (e.evaluate s).outcome = .ok v →
        (∀ event ∈ (e.evaluate s).events, event.level ≠ "DEBUG") ∧
          List.Forall₂ (Relation.RecordedAs s) e.relations (e.evaluate s).events) ∧
      (∀ f, (e.evaluate s).outcome = .error f →
        ∃ traces last, (e.evaluate s).events = traces ++ [last] ∧
          (∀ event ∈ traces, event.level = "TRACE") ∧
          last.level = "DEBUG" ∧ last.errorText? = some f.message) ∧
      (e.isSatisfied s).events = (e.evaluate s).events := by
  have hrun := recordedAs_events_run s e
  have hlevel : ∀ event ∈ (e.run s).events, event.level = "TRACE" := by
    intro event hevent
    exact level_of_mem_events_run s hevent
  have hfilter : (e.run s).events.filter (fun event => event.level = "TRACE") =
      (e.run s).events := by
    rw [List.filter_eq_self]
    intro event hevent
    exact decide_eq_true (hlevel event hevent)
  refine ⟨?_, ?_, ?_, events_isSatisfied s e⟩
  · cases h : (e.evaluate s).outcome with
    | ok v =>
        rw [events_evaluate_of_ok s h, hfilter]
        exact hrun
    | error f =>
        rw [events_evaluate_of_error s h, List.filter_append, hfilter]
        simpa [Event.level] using hrun
  · intro v h
    rw [events_evaluate_of_ok s h]
    constructor
    · intro event hevent
      simp [hlevel event hevent]
    · rw [← completed_walk ((outcome_eq_ok_iff s).mp h).1]
      exact hrun
  · intro f h
    exact ⟨(e.run s).events, .failed f, events_evaluate_of_error s h, hlevel, rfl, rfl⟩

end Expr

end SchedulingLogic

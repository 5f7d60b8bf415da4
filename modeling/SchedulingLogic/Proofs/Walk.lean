import Mathlib.Data.List.Basic
import SchedulingLogic.Evaluation
import SchedulingLogic.Expr.Traversal

/-!
# The walk behind an evaluation

A walk lists, operands before their node and from left to right, the relations of an
expression and everything that is wrong with it.  Running an expression replays its
walk up to the first fault.  A run that meets none ends in the value that the
expression has when types and missing instants are ignored.
-/

namespace SchedulingLogic

inductive Visit where
  | fault (cause : Fault)
  | relation (node : Relation)

namespace Visit

def fault? : Visit → Option Fault
  | fault f => some f
  | relation _ => none

def relation? : Visit → Option Relation
  | fault _ => none
  | relation r => some r

/-- The relations that are done before the first fault. -/
def completed : List Visit → List Relation
  | [] | fault _ :: _ => []
  | relation r :: visits => r :: completed visits

end Visit

namespace Expr

/-- The fault of a leaf itself: a point without an instant. -/
def ownFaults (s : Schedule) : Expr → List Fault
  | timePoint p => if (s.get? p).isSome then [] else [.unassigned p.text]
  | constant _ | relation .. | not _ | and _ | or _ => []

def unlessInteger (node : String) (c : Expr) : List Fault :=
  if c.isBoolean then [.typeMismatch node "integer" "boolean"] else []

def unlessBoolean (node : String) (c : Expr) : List Fault :=
  if c.isLeaf then [.typeMismatch node "boolean" "integer"] else []

/-- The fault that an operand causes in a node by the type of its root. -/
def mismatch : Expr → Expr → List Fault
  | constant _, _ | timePoint _, _ => []
  | relation .precedence _ _ _, c => unlessInteger "Precedence" c
  | relation .synchronization _ _ _, c => unlessInteger "Synchronization" c
  | not _, c => unlessBoolean "Not" c
  | and _, c => unlessBoolean "And" c
  | or _, c => unlessBoolean "Or" c

/-- All faults: for each operand its own ones and then the one that its type causes. -/
def faults (s : Schedule) (e : Expr) : List Fault :=
  e.fold fun node below =>
    node.ownFaults s ++ (node.args.zipWith (fun c fs => fs ++ node.mismatch c) below).flatten

/-- Faults and relations, each relation after everything in its operands. -/
def walk (s : Schedule) (e : Expr) : List Visit :=
  e.fold fun node below =>
    (node.ownFaults s).map .fault ++
      (node.args.zipWith (fun c vs => vs ++ (node.mismatch c).map .fault) below).flatten ++
      node.relation?.toList.map .relation

/-- The integer of a leaf, where nothing better than zero is known. -/
def instant (s : Schedule) : Expr → Int64
  | constant n => n
  | timePoint p => (s.get? p).getD 0
  | relation .. | not _ | and _ | or _ => 0

/-- The truth value of a node over the truth values of its operands. -/
def truth (s : Schedule) (e : Expr) : Bool :=
  e.fold fun node below =>
    match node with
    | constant _ | timePoint _ => false
    | relation k a b delay => k.check delay (a.instant s) (b.instant s)
    | not _ => !below.all id
    | and _ => below.all id
    | or _ => below.any id

def value (s : Schedule) (e : Expr) : Value :=
  if e.isLeaf then .int (e.instant s) else .bool (e.truth s)

theorem unlessInteger_eq_nil_iff {node : String} {c : Expr} :
    unlessInteger node c = [] ↔ c.isLeaf = true := by
  cases h : c.isLeaf <;> simp [unlessInteger, isBoolean_eq_not_isLeaf, h]

theorem unlessBoolean_eq_nil_iff {node : String} {c : Expr} :
    unlessBoolean node c = [] ↔ c.isLeaf = false := by
  cases h : c.isLeaf <;> simp [unlessBoolean, h]

theorem mismatch_relation (k : Relation.Kind) (a b c : Expr) (delay : Int64) :
    (relation k a b delay).mismatch c = unlessInteger k.name c := by
  cases k <;> rfl

variable (s : Schedule)

theorem faults_eq (e : Expr) :
    e.faults s = e.ownFaults s ++ e.args.flatMap fun c => c.faults s ++ e.mismatch c := by
  rw [faults, fold_eq, List.zipWith_map_right, List.zipWith_self, List.flatMap_def]
  rfl

theorem faults_eq_nil_iff_args {e : Expr} :
    e.faults s = [] ↔
      e.ownFaults s = [] ∧ ∀ c ∈ e.args, c.faults s = [] ∧ e.mismatch c = [] := by
  rw [faults_eq, List.append_eq_nil_iff, List.flatMap_eq_nil_iff]
  simp only [List.append_eq_nil_iff]

theorem walk_eq (e : Expr) :
    e.walk s = (e.ownFaults s).map .fault ++
      (e.args.flatMap fun c => c.walk s ++ (e.mismatch c).map .fault) ++
      e.relation?.toList.map .relation := by
  rw [walk, fold_eq, List.zipWith_map_right, List.zipWith_self, List.flatMap_def]
  rfl

theorem walk_timePoint (p : TimePoint) :
    (timePoint p).walk s = ((timePoint p).ownFaults s).map .fault := by
  rw [walk_eq]
  simp [args, relation?]

theorem walk_relation (k : Relation.Kind) (a b : Expr) (delay : Int64) :
    (relation k a b delay).walk s =
      (a.walk s ++ (unlessInteger k.name a).map .fault) ++
        ((b.walk s ++ (unlessInteger k.name b).map .fault) ++
          [.relation ⟨k, a, b, delay⟩]) := by
  rw [walk_eq]
  simp [ownFaults, args, relation?, mismatch_relation]

theorem walk_not (a : Expr) :
    (not a).walk s = a.walk s ++ (unlessBoolean "Not" a).map .fault := by
  rw [walk_eq]
  simp [ownFaults, args, relation?, mismatch]

theorem walk_and (cs : List Expr) :
    (and cs).walk s =
      cs.flatMap fun c => c.walk s ++ (unlessBoolean "And" c).map .fault := by
  rw [walk_eq]
  simp [ownFaults, args, relation?, mismatch]

theorem walk_or (cs : List Expr) :
    (or cs).walk s =
      cs.flatMap fun c => c.walk s ++ (unlessBoolean "Or" c).map .fault := by
  rw [walk_eq]
  simp [ownFaults, args, relation?, mismatch]

@[simp] theorem truth_relation (k : Relation.Kind) (a b : Expr) (delay : Int64) :
    (relation k a b delay).truth s = k.check delay (a.instant s) (b.instant s) := rfl

@[simp] theorem truth_not (a : Expr) : (not a).truth s = !a.truth s := by
  rw [truth, fold_eq]
  simp [args, truth]

@[simp] theorem truth_and (cs : List Expr) : (and cs).truth s = cs.all (truth s) := by
  rw [truth, fold_eq]
  simp only [args, List.all_map]
  rfl

@[simp] theorem truth_or (cs : List Expr) : (or cs).truth s = cs.any (truth s) := by
  rw [truth, fold_eq]
  simp only [args, List.any_map]
  rfl

theorem truth_of_isLeaf {e : Expr} (h : e.isLeaf = true) : e.truth s = false := by
  cases e with
  | constant n => rfl
  | timePoint p => rfl
  | _ => simp [isLeaf] at h

theorem value_of_isLeaf {e : Expr} (h : e.isLeaf = true) : e.value s = .int (e.instant s) :=
  if_pos h

theorem value_of_isBoolean {e : Expr} (h : e.isBoolean = true) :
    e.value s = .bool (e.truth s) := by
  rw [isBoolean_eq_not_isLeaf, Bool.not_eq_true'] at h
  rw [value, h]
  rfl

theorem value_of_not_isLeaf {e : Expr} (h : e.isLeaf = false) :
    e.value s = .bool (e.truth s) := by
  rw [value, h]
  rfl

end Expr

namespace Relation

/-- What is recorded of a relation between leaves. -/
def event (s : Schedule) (r : Relation) : Event :=
  .compared r.kind (r.first.instant s) (r.second.instant s) r.delay
    (r.check (r.first.instant s) (r.second.instant s))

end Relation

namespace Visit

variable (s : Schedule)

/-- Records the relations of a walk, and stops at the first fault. -/
def replay : List Visit → Traced Unit
  | [] => pure ()
  | fault f :: _ => .fail f
  | relation r :: visits => do
      .record (r.event s)
      replay visits

theorem replay_append (xs ys : List Visit) :
    replay s (xs ++ ys) = replay s xs >>= fun _ => replay s ys := by
  induction xs with
  | nil => rfl
  | cons x xs ih =>
      cases x with
      | fault f => rfl
      | relation r => simp only [List.cons_append, replay, ih, bind_assoc]

theorem events_replay (visits : List Visit) :
    (replay s visits).events = (completed visits).map (Relation.event s) := by
  induction visits with
  | nil => rfl
  | cons x visits ih =>
      cases x with
      | fault f => rfl
      | relation r =>
          show [r.event s] ++ (replay s visits).events = _
          rw [ih]
          rfl

theorem outcome_replay (visits : List Visit) :
    (replay s visits).outcome =
      match (visits.filterMap fault?).head? with
      | some f => .error f
      | none => .ok () := by
  induction visits with
  | nil => rfl
  | cons x visits ih =>
      cases x with
      | fault f => rfl
      | relation r => exact ih

end Visit

namespace Expr

open Visit

variable (s : Schedule)

theorem expectInt_value (node : String) (c : Expr) :
    Value.expectInt node (c.value s) =
      replay s ((unlessInteger node c).map .fault) >>= fun _ => pure (c.instant s) := by
  cases hc : c.isBoolean with
  | true =>
      rw [value_of_isBoolean s hc, unlessInteger, hc]
      rfl
  | false =>
      have hleaf : c.isLeaf = true := by simpa [isBoolean_eq_not_isLeaf] using hc
      rw [value_of_isLeaf s hleaf, unlessInteger, hc]
      rfl

theorem expectBool_value (node : String) (c : Expr) :
    Value.expectBool node (c.value s) =
      replay s ((unlessBoolean node c).map .fault) >>= fun _ => pure (c.truth s) := by
  cases hc : c.isLeaf with
  | true =>
      rw [value_of_isLeaf s hc, unlessBoolean, hc]
      rfl
  | false =>
      have hbool : c.isBoolean = true := by simp [isBoolean_eq_not_isLeaf, hc]
      rw [value_of_isBoolean s hbool, unlessBoolean, hc]
      rfl

/-- An operand is run and its type checked, once its own run is known to replay its walk. -/
theorem run_bind_eq_replay {α : Type} {c : Expr} {check : Value → Traced α}
    {fs : List Fault} {a : α}
    (h : c.run s = replay s (c.walk s) >>= fun _ => pure (c.value s))
    (hcheck : check (c.value s) = replay s (fs.map .fault) >>= fun _ => pure a) :
    c.run s >>= check = replay s (c.walk s ++ fs.map .fault) >>= fun _ => pure a := by
  rw [h, bind_assoc, replay_append, bind_assoc]
  simp only [pure_bind, hcheck]

theorem runEach_eq_replay (node : String) (cs : List Expr)
    (h : ∀ c ∈ cs, c.run s = replay s (c.walk s) >>= fun _ => pure (c.value s)) :
    runEach s node cs =
      replay s (cs.flatMap fun c => c.walk s ++ (unlessBoolean node c).map .fault) >>= fun _ =>
        pure (cs.map (truth s)) := by
  induction cs with
  | nil => rfl
  | cons c cs ih =>
      have hc := run_bind_eq_replay s (h c List.mem_cons_self) (expectBool_value s node c)
      have hcs := ih fun c hmem => h c (List.mem_cons_of_mem _ hmem)
      rw [runEach, hc, hcs, List.flatMap_cons]
      simp only [replay_append, bind_assoc, pure_bind, List.map_cons]

/-- Running an expression replays its walk. -/
theorem run_eq_replay (e : Expr) :
    e.run s = replay s (e.walk s) >>= fun _ => pure (e.value s) := by
  induction e using inductionOn with
  | step e ih =>
      cases e with
      | constant n => rfl
      | timePoint p =>
          rw [run, TimePoint.evaluate, walk_timePoint, value, instant, ownFaults]
          cases s.get? p <;> rfl
      | relation k a b delay =>
          have ha := run_bind_eq_replay s (ih a (by simp [args])) (expectInt_value s k.name a)
          have hb := run_bind_eq_replay s (ih b (by simp [args])) (expectInt_value s k.name b)
          rw [run, ha, hb, walk_relation]
          simp only [replay_append, bind_assoc, pure_bind]
          rfl
      | not a =>
          have ha := run_bind_eq_replay s (ih a (by simp [args])) (expectBool_value s "Not" a)
          rw [run, ha, walk_not, bind_assoc]
          simp only [pure_bind, value, truth_not]
          rfl
      | and cs =>
          have hcs := runEach_eq_replay s "And" cs ih
          rw [run, hcs, walk_and, bind_assoc]
          simp only [pure_bind, value, truth_and, List.all_map]
          rfl
      | or cs =>
          have hcs := runEach_eq_replay s "Or" cs ih
          rw [run, hcs, walk_or, bind_assoc]
          simp only [pure_bind, value, truth_or, List.any_map]
          rfl

theorem filterMap_fault?_map (fs : List Fault) :
    (fs.map Visit.fault).filterMap fault? = fs := by
  rw [List.filterMap_map]
  exact List.filterMap_some

theorem filterMap_fault?_walk (e : Expr) : (e.walk s).filterMap fault? = e.faults s := by
  induction e using inductionOn with
  | step e ih =>
      have hroot : (e.relation?.toList.map Visit.relation).filterMap fault? = [] := by
        cases e.relation? <;> rfl
      rw [walk_eq, faults_eq, List.filterMap_append, List.filterMap_append, hroot,
        filterMap_fault?_map, List.append_nil, List.filterMap_flatMap]
      congr 1
      apply List.flatMap_congr
      intro c hc
      rw [List.filterMap_append, filterMap_fault?_map, ih c hc]

theorem outcome_run (e : Expr) :
    (e.run s).outcome =
      match (e.faults s).head? with
      | some f => .error f
      | none => .ok (e.value s) := by
  rw [run_eq_replay, Traced.outcome_bind_pure, outcome_replay, filterMap_fault?_walk]
  cases (e.faults s).head? <;> rfl

theorem events_run (e : Expr) :
    (e.run s).events = (completed (e.walk s)).map (Relation.event s) := by
  rw [run_eq_replay, Traced.events_bind_pure, events_replay]

theorem outcome_eq_ok_iff {e : Expr} {v : Value} :
    (e.evaluate s).outcome = .ok v ↔ e.faults s = [] ∧ v = e.value s := by
  rw [outcome_evaluate, outcome_run]
  cases e.faults s with
  | nil => simp [eq_comm]
  | cons f fs => simp

theorem outcome_eq_int_iff {e : Expr} {n : Int64} :
    (e.evaluate s).outcome = .ok (.int n) ↔
      e.faults s = [] ∧ e.isLeaf = true ∧ e.instant s = n := by
  rw [outcome_eq_ok_iff]
  apply and_congr_right
  intro _
  cases h : e.isLeaf with
  | true => simp [value_of_isLeaf s h, eq_comm]
  | false => simp [value_of_not_isLeaf s h]

theorem outcome_eq_bool_iff {e : Expr} {b : Bool} :
    (e.evaluate s).outcome = .ok (.bool b) ↔
      e.faults s = [] ∧ e.isLeaf = false ∧ e.truth s = b := by
  rw [outcome_eq_ok_iff]
  apply and_congr_right
  intro _
  cases h : e.isLeaf with
  | true => simp [value_of_isLeaf s h]
  | false => simp [value_of_not_isLeaf s h, eq_comm]

/-- Boolean expressions of the same truth value that are both faultless or both faulty have the
same values. -/
theorem outcome_eq_ok_congr {e d : Expr} (he : e.isBoolean = true) (hd : d.isBoolean = true)
    (hfaults : e.faults s = [] ↔ d.faults s = []) (htruth : e.truth s = d.truth s) (v : Value) :
    (e.evaluate s).outcome = .ok v ↔ (d.evaluate s).outcome = .ok v := by
  have hvalue : e.value s = d.value s := by
    rw [value_of_isBoolean s he, value_of_isBoolean s hd, htruth]
  rw [outcome_eq_ok_iff, outcome_eq_ok_iff, hfaults, hvalue]

theorem outcome_eq_error_iff {e : Expr} {f : Fault} :
    (e.evaluate s).outcome = .error f ↔ (e.faults s).head? = some f := by
  rw [outcome_evaluate, outcome_run]
  cases (e.faults s).head? <;> simp

theorem outcome_isSatisfied (e : Expr) :
    (e.isSatisfied s).outcome =
      match (e.faults s).head? with
      | some f => .error f
      | none => (Value.expectBool "expression" (e.value s)).outcome := by
  rw [isSatisfied, Traced.outcome_bind, outcome_evaluate, outcome_run]
  cases (e.faults s).head? <;> rfl

/-- An evaluation fails exactly when something is wrong, and then with the first fault. -/
theorem evaluate_error_iff_head_faults (e : Expr) :
    ((∃ f, (e.evaluate s).outcome = .error f) ↔ e.faults s ≠ []) ∧
      ∀ f, (e.evaluate s).outcome = .error f ↔ (e.faults s).head? = some f := by
  constructor
  · simp only [outcome_eq_error_iff]
    rw [← Option.isSome_iff_exists, List.isSome_head?]
  · intro f
    exact outcome_eq_error_iff s

end Expr

end SchedulingLogic

import SchedulingLogic.Fault
import SchedulingLogic.Relation.Kind

/-!
# Traced computations

A traced computation ends in a value or in a fault, and records events on the way.
The events of a computation that fails are kept, and nothing follows them.
-/

namespace SchedulingLogic

inductive Event where
  /-- A relation was compared between these values of its operands. -/
  | compared (kind : Relation.Kind) (first second delay : Int64) (result : Bool)
  /-- The evaluation of a whole expression ended in a fault. -/
  | failed (fault : Fault)
  deriving DecidableEq

namespace Event

def level : Event → String
  | compared .. => "TRACE"
  | failed _ => "DEBUG"

def message : Event → String
  | compared .. => "evaluated temporal relation"
  | failed _ => "expression evaluation failed"

/-- The text of the fault that a failure reports. -/
def errorText? : Event → Option String
  | compared .. => none
  | failed fault => some fault.message

end Event

structure Traced (α : Type) where
  events : List Event
  outcome : Except Fault α

namespace Traced

variable {α β γ : Type}

@[ext] theorem ext {x y : Traced α} (he : x.events = y.events) (ho : x.outcome = y.outcome) :
    x = y := by
  cases x
  cases y
  simp_all

def fail (f : Fault) : Traced α := ⟨[], .error f⟩

def record (e : Event) : Traced Unit := ⟨[e], .ok ()⟩

instance : Monad Traced where
  pure a := ⟨[], .ok a⟩
  bind x f :=
    match x.outcome with
    | .error fault => ⟨x.events, .error fault⟩
    | .ok a => ⟨x.events ++ (f a).events, (f a).outcome⟩

theorem pure_eq (a : α) : (pure a : Traced α) = ⟨[], .ok a⟩ := rfl

@[simp] theorem mk_error_bind (es : List Event) (fault : Fault) (f : α → Traced β) :
    (⟨es, .error fault⟩ : Traced α) >>= f = ⟨es, .error fault⟩ := rfl

@[simp] theorem mk_ok_bind (es : List Event) (a : α) (f : α → Traced β) :
    (⟨es, .ok a⟩ : Traced α) >>= f = ⟨es ++ (f a).events, (f a).outcome⟩ := rfl

@[simp] theorem fail_bind (fault : Fault) (f : α → Traced β) : fail fault >>= f = fail fault := rfl

instance : LawfulMonad Traced :=
  LawfulMonad.mk' Traced
    (fun x => by
      obtain ⟨es, _ | a⟩ := x
      · rfl
      · show Traced.mk (es ++ []) _ = _
        rw [List.append_nil]
        rfl)
    (fun _ _ => rfl)
    (fun x f g => by
      obtain ⟨es, _ | a⟩ := x
      · rfl
      · simp only [mk_ok_bind]
        obtain ⟨fs, _ | b⟩ := f a
        · rfl
        · simp)

theorem outcome_bind (x : Traced α) (f : α → Traced β) :
    (x >>= f).outcome =
      match x.outcome with
      | .error fault => .error fault
      | .ok a => (f a).outcome := by
  obtain ⟨es, _ | a⟩ := x <;> rfl

theorem events_bind_pure (x : Traced α) (f : α → β) :
    (x >>= fun a => pure (f a)).events = x.events := by
  obtain ⟨es, _ | a⟩ := x
  · rfl
  · exact List.append_nil es

theorem outcome_bind_pure (x : Traced α) (f : α → β) :
    (x >>= fun a => pure (f a)).outcome = x.outcome.map f := by
  obtain ⟨es, _ | a⟩ := x <;> rfl

/-- Records a failure as the last event. -/
def reportFailure (x : Traced α) : Traced α :=
  match x.outcome with
  | .error fault => ⟨x.events ++ [.failed fault], .error fault⟩
  | .ok _ => x

@[simp] theorem outcome_reportFailure (x : Traced α) : x.reportFailure.outcome = x.outcome := by
  obtain ⟨es, _ | a⟩ := x <;> rfl

end Traced

end SchedulingLogic

/-!
# Time points

A time point is one end of an interval.  Its label is only what is printed; the
interval's id and the endpoint together are the key under which a schedule keeps
the point's instant.
-/

namespace SchedulingLogic

inductive Endpoint where
  | start
  | finish
  deriving DecidableEq

namespace Endpoint

/-- The attribute written after the label of a point. -/
def attributeName : Endpoint → String
  | start => "start_time"
  | finish => "end_time"

theorem attributeName_injective {a b : Endpoint}
    (h : a.attributeName = b.attributeName) : a = b := by
  cases a <;> cases b <;> simp_all [attributeName]

end Endpoint

/-- One end of the interval with the given id, shown under a label. -/
structure TimePoint where
  interval : String
  label : String
  endpoint : Endpoint
  deriving DecidableEq

namespace TimePoint

/-- What identifies an instant: an interval id and one of its ends. -/
abbrev Key := String × Endpoint

def key (p : TimePoint) : Key := (p.interval, p.endpoint)

theorem key_eq_iff {p q : TimePoint} :
    p.key = q.key ↔ p.interval = q.interval ∧ p.endpoint = q.endpoint :=
  Prod.ext_iff

/-- The point written under `name` instead of its own label. -/
def textAs (p : TimePoint) (name : String) : String :=
  name ++ "." ++ p.endpoint.attributeName

def text (p : TimePoint) : String := p.textAs p.label

def relabel (p : TimePoint) (label : String) : TimePoint := { p with label }

@[simp] theorem key_relabel (p : TimePoint) (label : String) :
    (p.relabel label).key = p.key := rfl

end TimePoint

end SchedulingLogic

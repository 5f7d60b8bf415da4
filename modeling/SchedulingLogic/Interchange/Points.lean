import SchedulingLogic.Interchange.Codec
import SchedulingLogic.Interval
import SchedulingLogic.Value

/-!
# JSON forms of points, intervals and values
-/

namespace SchedulingLogic

namespace Endpoint

def tag : Endpoint → String
  | start => "start"
  | finish => "end"

def ofTag? (s : String) : Option Endpoint :=
  if s = "start" then some start else if s = "end" then some finish else none

instance : Codec Endpoint where
  encode e := .ofText e.tag
  decode? depth j := (j.variant? depth).bind ofTag?

@[simp] theorem ofTag?_tag (e : Endpoint) : ofTag? e.tag = some e := by
  cases e <;> simp [ofTag?, tag]

theorem ofTag?_eq_some_iff {s : String} {e : Endpoint} : ofTag? s = some e ↔ s = e.tag := by
  constructor
  · intro h
    unfold ofTag? at h
    split at h
    · cases h
      assumption
    · rw [Option.ite_none_right_eq_some] at h
      obtain ⟨rfl, h⟩ := h
      cases h
      rfl
  · rintro rfl
    exact ofTag?_tag e

end Endpoint

namespace TimePoint

instance : Codec TimePoint where
  encode p :=
    .record [("interval", .ofText p.interval), ("label", .ofText p.label),
      ("kind", Codec.encode p.endpoint)]
  decode?
    | 0, _ => none
    | depth + 1, j => do
        let [interval, label, endpoint] ← j.fields? ["interval", "label", "kind"] | none
        return ⟨← interval.text?, ← label.text?, ← Codec.decode? depth endpoint⟩

end TimePoint

namespace Interval

instance : Codec Interval where
  encode x := .record [("id", .ofText x.id), ("name", .ofText x.name)]
  decode?
    | 0, _ => none
    | _ + 1, j => do
        let [id, name] ← j.fields? ["id", "name"] | none
        return ⟨← id.text?, ← name.text?⟩

end Interval

namespace Value

instance : Codec Value where
  encode
    | int n => .tagged "int" (.ofInt64 n)
    | bool b => .tagged "bool" (.bool b)
  decode?
    | 0, _ => none
    | _ + 1, j => do
        let (name, content) ← j.tagged?
        if name = "int" then content.int64?.map int
        else if name = "bool" then content.bool?.map bool
        else none

end Value

end SchedulingLogic

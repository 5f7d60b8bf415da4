import SchedulingLogic.Interchange.Points
import SchedulingLogic.Relation.Basic

/-!
# JSON forms of relations and expressions
-/

namespace SchedulingLogic

namespace Relation

namespace Kind

def tag : Kind → String
  | precedence => "precedence"
  | synchronization => "synchronization"

def ofTag? (s : String) : Option Kind :=
  if s = "precedence" then some precedence
  else if s = "synchronization" then some synchronization
  else none

instance : Codec Kind where
  encode k := .ofText k.tag
  decode? depth j := (j.variant? depth).bind ofTag?

@[simp] theorem ofTag?_tag (k : Kind) : ofTag? k.tag = some k := by
  cases k <;> simp [ofTag?, tag]

theorem ofTag?_eq_some_iff {s : String} {k : Kind} : ofTag? s = some k ↔ s = k.tag := by
  constructor
  · intro h
    unfold ofTag? at h
    split at h
    · cases h
      assumption
    · rw [Option.ite_none_right_eq_some] at h
      obtain ⟨rfl, h⟩ := h
      cases h
      rfl
  · rintro rfl
    exact ofTag?_tag k

end Kind

/-- The form of a relation over the forms of its operands. -/
def form (k : Kind) (first second : Json) (delay : Int64) : Json :=
  .tagged k.tag (.record [("args", .array [first, second]), ("delay", .ofInt64 delay)])

/-- Decodes a relation whose operands are decoded by `operand?`.  Around an operand it
opens three arrays and objects. -/
def ofForm? (operand? : Json → Option Expr) (j : Json) : Option Relation := do
  let (name, body) ← j.tagged?
  let kind ← Kind.ofTag? name
  let [args, delay] ← body.fields? ["args", "delay"] | none
  let [first, second] ← args.items? | none
  return ⟨kind, ← operand? first, ← operand? second, ← delay.int64?⟩

@[simp] theorem nesting_form (k : Kind) (first second : Json) (delay : Int64) :
    (form k first second delay).nesting = max first.nesting second.nesting + 3 := by
  simp [form, Json.nesting, Json.nestingItems, Nat.add_comm 1]

end Relation

namespace Expr

mutual

def encode : Expr → Json
  | constant n => .tagged "constant" (.ofInt64 n)
  | timePoint p => .tagged "time_point" (Codec.encode p)
  | relation k a b delay => .tagged "relation" (Relation.form k (encode a) (encode b) delay)
  | not a => .tagged "not" (encode a)
  | and cs => .tagged "and" (.array (encodeEach cs))
  | or cs => .tagged "or" (.array (encodeEach cs))

def encodeEach : List Expr → List Json
  | [] => []
  | c :: cs => encode c :: encodeEach cs

end

theorem encodeEach_eq_map (cs : List Expr) : encodeEach cs = cs.map encode := by
  induction cs with
  | nil => rfl
  | cons c cs ih => simp [encodeEach, ih]

/-- Each object that holds an expression is opened first; what is left of `depth` is for
its content. -/
def decode? : Nat → Json → Option Expr
  | 0, _ => none
  | depth + 1, j => do
      let (name, content) ← j.tagged?
      if name = "constant" then content.int64?.map constant
      else if name = "time_point" then (Codec.decode? depth content).map timePoint
      else if name = "relation" then
        match depth with
        | depth + 3 => (Relation.ofForm? (decode? depth) content).map Relation.toExpr
        | _ => none
      else if name = "not" then (decode? depth content).map not
      else if name = "and" || name = "or" then
        match depth with
        | depth + 1 => do
            let cs ← (← content.items?).mapM (decode? depth)
            return if name = "and" then and cs else or cs
        | 0 => none
      else none

instance : Codec Expr := ⟨encode, decode?⟩

end Expr

namespace Relation

instance : Codec Relation where
  encode r := form r.kind r.first.encode r.second.encode r.delay
  decode?
    | depth + 3, j => ofForm? (Expr.decode? depth) j
    | _, _ => none

end Relation

end SchedulingLogic

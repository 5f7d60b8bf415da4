import SchedulingLogic.Json.Reader
import SchedulingLogic.Json.Writer

/-!
# JSON forms

A type with a JSON form encodes each of its values in one way and decodes any spelling
of them: records with their fields in any order, among unknown members, or as a plain
list, and variants without content as a name or as a name with null.  Decoding is
told how many arrays and objects may still be opened; unknown members are not counted.
-/

namespace SchedulingLogic

class Codec (α : Type) where
  encode : α → Json
  decode? : Nat → Json → Option α

namespace Codec

/-- How many arrays and objects may be open at once in a decoded text. -/
def nestingLimit : Nat := 127

variable {α : Type} [Codec α]

def text (a : α) : String := (encode a).text

def read? (s : String) : Option α := (Json.read? s).bind (decode? nestingLimit)

end Codec

namespace Json

def tagged (name : String) (content : Json) : Json := object [(some name, content)]

/-- The name and the content of a variant with content. -/
def tagged? : Json → Option (String × Json)
  | object [(some name, content)] => some (name, content)
  | _ => none

/-- The name of a variant without content. -/
def variant? : Nat → Json → Option String
  | _, string s => s
  | _ + 1, object [(name, null)] => name
  | _, _ => none

def record (fields : List (String × Json)) : Json :=
  object (fields.map fun field => (some field.1, field.2))

/-- The content of the only member with this name. -/
def field? (members : List (Option String × Json)) (name : String) : Option Json :=
  match members.filter fun m => m.1 == some name with
  | [m] => some m.2
  | _ => none

/-- The contents of the fields of a record, in the order of `names`. -/
def fields? (names : List String) : Json → Option (List Json)
  | array items => if items.length = names.length then some items else none
  | object members =>
      if members.all fun m => m.1.isSome then names.mapM (field? members) else none
  | _ => none

@[simp] theorem tagged?_tagged (name : String) (content : Json) :
    (tagged name content).tagged? = some (name, content) := rfl

@[simp] theorem variant?_ofText (depth : Nat) (s : String) :
    (ofText s).variant? depth = some s := by
  cases depth <;> rfl

theorem tagged?_eq_some_iff {j : Json} {name : String} {content : Json} :
    j.tagged? = some (name, content) ↔ j = tagged name content := by
  constructor
  · intro h
    unfold tagged? at h
    split at h
    · simp_all [tagged]
    · simp at h
  · rintro rfl
    rfl

@[simp] theorem nesting_tagged (name : String) (content : Json) :
    (tagged name content).nesting = content.nesting + 1 := by
  simp [tagged, nesting, nestingMembers, Nat.add_comm]

theorem variant?_eq_some_iff {depth : Nat} {j : Json} {s : String} (h : j.nesting ≤ depth) :
    j.variant? depth = some s ↔ j = ofText s ∨ j = tagged s null := by
  constructor
  · intro hs
    unfold variant? at hs
    split at hs
    · exact Or.inl (congrArg string hs)
    · exact Or.inr (by rw [hs]; rfl)
    · simp at hs
  · rintro (rfl | rfl)
    · simp
    · cases depth with
      | zero => simp at h
      | succ depth => rfl

@[simp] theorem nesting_record (fields : List (String × Json)) :
    (record fields).nesting = nestingItems (fields.map Prod.snd) + 1 := by
  have hmembers : nestingMembers (fields.map fun field => (some field.1, field.2)) =
      nestingItems (fields.map Prod.snd) := by
    induction fields with
    | nil => rfl
    | cons field fields ih => simp [nestingMembers, nestingItems, ih]
  rw [record, nesting, hmembers, Nat.add_comm]

end Json

end SchedulingLogic

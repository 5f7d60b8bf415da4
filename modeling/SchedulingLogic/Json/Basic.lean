/-!
# JSON values

Objects keep their members in order, repeated names included.  A string that holds one
half of a surrogate pair without the other is grammatical but has no text; it is kept
as `none`, as a value and as the name of a member.
-/

namespace SchedulingLogic

inductive Json where
  | null
  | bool (value : Bool)
  | integer (value : Int)
  /-- A number written with a fraction or an exponent, or as `-0`. -/
  | real (numeral : String)
  | string (text : Option String)
  | array (items : List Json)
  | object (members : List (Option String × Json))

namespace Json

mutual

/-- How many arrays and objects lie around each other at most. -/
def nesting : Json → Nat
  | array items => 1 + nestingItems items
  | object members => 1 + nestingMembers members
  | null | bool _ | integer _ | real _ | string _ => 0

def nestingItems : List Json → Nat
  | [] => 0
  | j :: rest => max (nesting j) (nestingItems rest)

def nestingMembers : List (Option String × Json) → Nat
  | [] => 0
  | (_, j) :: rest => max (nesting j) (nestingMembers rest)

end

theorem nestingItems_le_iff {items : List Json} {n : Nat} :
    nestingItems items ≤ n ↔ ∀ j ∈ items, j.nesting ≤ n := by
  induction items with
  | nil => simp [nestingItems]
  | cons j rest ih => rw [nestingItems, Nat.max_le, ih, List.forall_mem_cons]

theorem nestingMembers_le_iff {members : List (Option String × Json)} {n : Nat} :
    nestingMembers members ≤ n ↔ ∀ m ∈ members, m.2.nesting ≤ n := by
  induction members with
  | nil => simp [nestingMembers]
  | cons m rest ih => rw [nestingMembers, Nat.max_le, ih, List.forall_mem_cons]

def ofText (s : String) : Json := string (some s)

def ofInt64 (n : Int64) : Json := integer n.toInt

def text? : Json → Option String
  | string s => s
  | _ => none

def items? : Json → Option (List Json)
  | array items => some items
  | _ => none

def bool? : Json → Option Bool
  | bool b => some b
  | _ => none

/-- An integer that fits into 64 bits. -/
def int64? : Json → Option Int64
  | integer n =>
      if Int64.minValue.toInt ≤ n ∧ n ≤ Int64.maxValue.toInt then some (Int64.ofInt n) else none
  | _ => none

@[simp] theorem nesting_array (items : List Json) :
    (array items).nesting = nestingItems items + 1 := by
  rw [nesting, Nat.add_comm]

@[simp] theorem nesting_ofText (s : String) : (ofText s).nesting = 0 := by
  rw [ofText, nesting]

@[simp] theorem nesting_ofInt64 (n : Int64) : (ofInt64 n).nesting = 0 := by
  rw [ofInt64, nesting]

@[simp] theorem items?_array (items : List Json) : (array items).items? = some items := rfl

@[simp] theorem text?_ofText (s : String) : (ofText s).text? = some s := rfl

theorem text?_eq_some_iff {j : Json} {s : String} : j.text? = some s ↔ j = ofText s := by
  cases j <;> simp [text?, ofText]

theorem items?_eq_some_iff {j : Json} {items : List Json} :
    j.items? = some items ↔ j = array items := by
  cases j <;> simp [items?]

@[simp] theorem int64?_ofInt64 (n : Int64) : (ofInt64 n).int64? = some n := by
  show (if _ then _ else _) = _
  rw [if_pos ⟨n.minValue_le_toInt, n.toInt_le⟩, Int64.ofInt_toInt]

theorem int64?_eq_some_iff {j : Json} {n : Int64} : j.int64? = some n ↔ j = ofInt64 n := by
  constructor
  · intro h
    cases j with
    | integer m =>
        rw [int64?, Option.ite_none_right_eq_some] at h
        obtain ⟨hm, hn⟩ := h
        rw [ofInt64, ← Option.some.inj hn, Int64.toInt_ofInt_of_le hm.1 (Int.lt_of_le_sub_one hm.2)]
    | _ => simp [int64?] at h
  · rintro rfl
    exact int64?_ofInt64 n

end Json

end SchedulingLogic

import SchedulingLogic.Json.Basic

/-!
# Writing JSON

Values are written without blanks.  In strings only quotes, backslashes and the
characters below U+0020 are escaped.
-/

namespace SchedulingLogic

namespace Json

/-- A character as it stands in a string. -/
def escape (c : Char) : List Char :=
  if c = '"' || c = '\\' then ['\\', c]
  else if c = '\x08' then ['\\', 'b']
  else if c = '\x0c' then ['\\', 'f']
  else if c = '\n' then ['\\', 'n']
  else if c = '\r' then ['\\', 'r']
  else if c = '\t' then ['\\', 't']
  else if c.toNat < 0x20 then
    ['\\', 'u', '0', '0', Nat.digitChar (c.toNat / 16), Nat.digitChar (c.toNat % 16)]
  else [c]

/-- A string without text is written as half of a surrogate pair. -/
def quote : Option String → List Char
  | some s => '"' :: s.toList.flatMap escape ++ ['"']
  | none => ['"', '\\', 'u', 'd', '8', '0', '0', '"']

mutual

def toChars : Json → List Char
  | null => ['n', 'u', 'l', 'l']
  | bool true => ['t', 'r', 'u', 'e']
  | bool false => ['f', 'a', 'l', 's', 'e']
  | integer n => n.repr.toList
  | real numeral => numeral.toList
  | string s => quote s
  | array items => '[' :: List.intercalate [','] (itemChars items) ++ [']']
  | object members => '{' :: List.intercalate [','] (memberChars members) ++ ['}']

def itemChars : List Json → List (List Char)
  | [] => []
  | j :: rest => toChars j :: itemChars rest

def memberChars : List (Option String × Json) → List (List Char)
  | [] => []
  | (name, j) :: rest => (quote name ++ ':' :: toChars j) :: memberChars rest

end

theorem itemChars_eq_map (items : List Json) : itemChars items = items.map toChars := by
  induction items with
  | nil => rfl
  | cons j rest ih => rw [itemChars, ih, List.map_cons]

def writeMember (m : Option String × Json) : List Char := quote m.1 ++ ':' :: toChars m.2

theorem memberChars_eq_map (members : List (Option String × Json)) :
    memberChars members = members.map writeMember := by
  induction members with
  | nil => rfl
  | cons m rest ih => rw [memberChars, ih, List.map_cons, writeMember]

def text (j : Json) : String := String.ofList j.toChars

end Json

end SchedulingLogic

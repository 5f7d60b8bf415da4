import SchedulingLogic.Json.Basic

/-!
# Reading JSON

The strict grammar: one value, with blanks around its tokens and nothing after it.
There is no limit on how deep a value nests; `value` is given fuel, and the length of
the text is always enough.
-/

namespace SchedulingLogic

namespace Json

/-- Reads something off the front of a text, and returns what is left. -/
abbrev Reader (α : Type) := List Char → Option (α × List Char)

def isBlank (c : Char) : Bool := c = ' ' || c = '\t' || c = '\n' || c = '\r'

def skipBlanks (cs : List Char) : List Char := cs.dropWhile isBlank

/-! ## Strings -/

def hexValue? (c : Char) : Option Nat :=
  if '0' ≤ c ∧ c ≤ '9' then some (c.toNat - 48)
  else if 'a' ≤ c ∧ c ≤ 'f' then some (c.toNat - 87)
  else if 'A' ≤ c ∧ c ≤ 'F' then some (c.toNat - 55)
  else none

/-- The number that four hexadecimal digits write. -/
def hexQuad? (a b c d : Char) : Option Nat := do
  return ((← hexValue? a) * 16 + (← hexValue? b)) * 256 + ((← hexValue? c) * 16 + (← hexValue? d))

/-- The character that a backslash and one letter write. -/
def escaped? (c : Char) : Option Char :=
  if c = '"' || c = '\\' || c = '/' then some c
  else if c = 'b' then some '\x08'
  else if c = 'f' then some '\x0c'
  else if c = 'n' then some '\n'
  else if c = 'r' then some '\r'
  else if c = 't' then some '\t'
  else none

/-- The code points of a string up to its closing quote.  Each `\u` escape is one. -/
def codePoints : Reader (List Nat)
  | [] => none
  | '"' :: rest => some ([], rest)
  | '\\' :: 'u' :: a :: b :: c :: d :: rest => do
      let n ← hexQuad? a b c d
      let (ns, rest) ← codePoints rest
      return (n :: ns, rest)
  | '\\' :: c :: rest => do
      let c ← escaped? c
      let (ns, rest) ← codePoints rest
      return (c.toNat :: ns, rest)
  | c :: rest =>
      if c.toNat < 0x20 then none
      else do
        let (ns, rest) ← codePoints rest
        return (c.toNat :: ns, rest)

def isHighHalf (n : Nat) : Bool := 0xd800 ≤ n && n < 0xdc00

def isLowHalf (n : Nat) : Bool := 0xdc00 ≤ n && n < 0xe000

/-- The characters of a list of code points, in which a high half followed by a low half
is one character, and no other half is any. -/
def characters? : List Nat → Option (List Char)
  | [] => some []
  | n :: rest =>
      if isHighHalf n then
        match rest with
        | [] => none
        | m :: rest =>
            if isLowHalf m then
              (characters? rest).map
                (Char.ofNat (0x10000 + (n - 0xd800) * 0x400 + (m - 0xdc00)) :: ·)
            else none
      else if isLowHalf n then none
      else (characters? rest).map (Char.ofNat n :: ·)

/-- The rest of a string after its opening quote. -/
def stringBody : Reader (Option String) := fun cs => do
  let (ns, rest) ← codePoints cs
  return ((characters? ns).map String.ofList, rest)

/-! ## Numbers -/

def digits (cs : List Char) : List Char × List Char :=
  (cs.takeWhile Char.isDigit, cs.dropWhile Char.isDigit)

/-- A point and digits, or nothing. -/
def fraction : Reader (List Char)
  | '.' :: rest =>
      match digits rest with
      | ([], _) => none
      | (ds, rest) => some ('.' :: ds, rest)
  | cs => some ([], cs)

def sign : List Char → List Char × List Char
  | '+' :: rest => (['+'], rest)
  | '-' :: rest => (['-'], rest)
  | cs => ([], cs)

/-- An `e`, a sign and digits, or nothing. -/
def exponent : Reader (List Char)
  | c :: rest =>
      if c = 'e' || c = 'E' then
        match digits (sign rest).2 with
        | ([], _) => none
        | (ds, left) => some (c :: (sign rest).1 ++ ds, left)
      else some ([], c :: rest)
  | [] => some ([], [])

def isWhole (ds : List Char) : Bool := ds = ['0'] || (ds ≠ [] && ds.head? ≠ some '0')

/-- A number without its minus sign. -/
def magnitude (negative : Bool) : Reader Json := fun cs => do
  let (ds, rest) := digits cs
  guard (isWhole ds)
  let (fr, rest) ← fraction rest
  let (ex, rest) ← exponent rest
  let n := Nat.ofDigitChars 10 ds 0
  if fr = [] ∧ ex = [] ∧ ¬(negative ∧ n = 0) then
    return (integer (if negative then -n else n), rest)
  else
    return (real (String.ofList ((if negative then ['-'] else []) ++ ds ++ fr ++ ex)), rest)

def number : Reader Json
  | '-' :: rest => magnitude true rest
  | cs => magnitude false cs

/-! ## Values -/

/-- One or more items with commas between them, up to a closing bracket. -/
def itemsUpTo {α : Type} (close : Char) (item : Reader α) : Nat → Reader (List α)
  | 0, _ => none
  | fuel + 1, cs => do
      let (x, rest) ← item cs
      match skipBlanks rest with
      | [] => none
      | c :: rest =>
          if c = close then some ([x], rest)
          else if c = ',' then do
            let (xs, rest) ← itemsUpTo close item fuel rest
            return (x :: xs, rest)
          else none

/-- The items after an opening bracket. -/
def sequence {α : Type} (close : Char) (item : Reader α) : Reader (List α) := fun cs =>
  match skipBlanks cs with
  | [] => none
  | c :: rest =>
      if c = close then some ([], rest)
      else itemsUpTo close item (rest.length + 1) (c :: rest)

/-- A name, a colon and a value. -/
def member (item : Reader Json) : Reader (Option String × Json) := fun cs =>
  match skipBlanks cs with
  | '"' :: rest => do
      let (name, rest) ← stringBody rest
      match skipBlanks rest with
      | ':' :: rest => do
          let (j, rest) ← item rest
          return ((name, j), rest)
      | _ => none
  | _ => none

/-- The rest of a keyword after its first letter. -/
def keyword (word : List Char) (j : Json) : Reader Json := fun cs =>
  if word.isPrefixOf cs then some (j, cs.drop word.length) else none

def value : Nat → Reader Json
  | 0, _ => none
  | fuel + 1, cs =>
      match skipBlanks cs with
      | [] => none
      | c :: rest =>
          if c = '"' then (stringBody rest).map fun (s, rest) => (string s, rest)
          else if c = '[' then
            (sequence ']' (value fuel) rest).map fun (js, rest) => (array js, rest)
          else if c = '{' then
            (sequence '}' (member (value fuel)) rest).map fun (ms, rest) => (object ms, rest)
          else if c = 'n' then keyword ['u', 'l', 'l'] null rest
          else if c = 't' then keyword ['r', 'u', 'e'] (bool true) rest
          else if c = 'f' then keyword ['a', 'l', 's', 'e'] (bool false) rest
          else number (c :: rest)

def ofChars? (cs : List Char) : Option Json :=
  match value (cs.length + 1) cs with
  | some (j, rest) => if skipBlanks rest = [] then some j else none
  | none => none

def read? (s : String) : Option Json := ofChars? s.toList

end Json

end SchedulingLogic

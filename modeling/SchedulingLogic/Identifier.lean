/-!
# Random identifiers

An identifier is sixteen random bytes in the usual text form of a version 4 UUID:
hexadecimal, in groups of 4, 2, 2, 2 and 6 bytes.  The version digit is 4 and the top
bits of the ninth byte are `10`, whatever was drawn.
-/

namespace SchedulingLogic

namespace Identifier

def hexPair (byte : Nat) : List Char := [Nat.digitChar (byte / 16), Nat.digitChar (byte % 16)]

/-- Marks the version in the seventh byte and the variant in the ninth. -/
def stamp (bytes : List Nat) : List Nat :=
  bytes.mapIdx fun i byte =>
    if i = 6 then 0x40 + byte % 0x10 else if i = 8 then 0x80 + byte % 0x40 else byte

/-- Cuts a list into pieces of these lengths. -/
def pieces {α : Type} : List Nat → List α → List (List α)
  | [], _ => []
  | n :: ns, xs => xs.take n :: pieces ns (xs.drop n)

def ofBytes (bytes : List Nat) : String :=
  String.intercalate "-" <| (pieces [4, 2, 2, 2, 6] (stamp bytes)).map fun piece =>
    String.ofList (piece.flatMap hexPair)

/-- `count` random bytes, and the generator for the next draw. -/
def drawBytes {γ : Type} [RandomGen γ] : Nat → γ → List Nat × γ
  | 0, g => ([], g)
  | count + 1, g =>
      let (byte, g) := randNat g 0 255
      let (bytes, g) := drawBytes count g
      (byte :: bytes, g)

/-- A fresh identifier, and the generator for the next draw. -/
def fresh {γ : Type} [RandomGen γ] (g : γ) : String × γ :=
  let (bytes, g) := drawBytes 16 g
  (ofBytes bytes, g)

end Identifier

end SchedulingLogic

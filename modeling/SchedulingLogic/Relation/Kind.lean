import SchedulingLogic.Value

/-!
# Kinds of temporal relation

A relation shifts its first operand by a delay and compares the sum with its second
operand.  The comparison works on 128-bit two's complement words, in which the sum
of two 64-bit integers never wraps, so it agrees with the one over the integers.
-/

namespace SchedulingLogic

/-- A 128-bit word read in two's complement. -/
abbrev Wide := BitVec 128

def widen (n : Int64) : Wide := n.toBitVec.signExtend 128

@[simp] theorem toInt_widen (n : Int64) : (widen n).toInt = n.toInt := by
  simp [widen, BitVec.toInt_signExtend_of_le]

theorem toInt_widen_add (a b : Int64) : (widen a + widen b).toInt = a.toInt + b.toInt := by
  have ha := a.le_toInt
  have ha' := a.toInt_lt
  have hb := b.le_toInt
  have hb' := b.toInt_lt
  rw [BitVec.toInt_add, toInt_widen, toInt_widen, Int.bmod_eq_of_le] <;> omega

/-- `precedence` asks that the second operand comes no earlier than the shifted first,
`synchronization` that the two coincide. -/
inductive Relation.Kind where
  | precedence
  | synchronization
  deriving DecidableEq

namespace Relation.Kind

def name : Kind → String
  | precedence => "Precedence"
  | synchronization => "Synchronization"

def symbol : Kind → String
  | precedence => "<="
  | synchronization => "=="

/-- The comparison itself, between the shifted first operand and the second. -/
def holds : Kind → Wide → Wide → Bool
  | precedence, a, b => a.sle b
  | synchronization, a, b => a == b

/-- Shifts `first` by `delay` and compares it with `second`. -/
def check (k : Kind) (delay first second : Int64) : Bool :=
  k.holds (widen first + widen delay) (widen second)

/-- The text of an operand shifted by `delay`: a zero shift is not written, a negative
one is a subtraction. -/
def shifted (delay : Int64) (text : String) : String :=
  if delay.toInt = 0 then text
  else if 0 < delay.toInt then text ++ " + " ++ delay.toInt.natAbs.repr
  else text ++ " - " ++ delay.toInt.natAbs.repr

/-- The text of a relation over the texts of its operands. -/
def phrase (k : Kind) (delay : Int64) (first second : String) : String :=
  shifted delay first ++ " " ++ k.symbol ++ " " ++ second

theorem holds_precedence_iff {a b : Wide} :
    precedence.holds a b = true ↔ a.toInt ≤ b.toInt := by
  simp [holds, BitVec.sle_iff_toInt_le]

theorem holds_synchronization_iff {a b : Wide} :
    synchronization.holds a b = true ↔ a.toInt = b.toInt := by
  simp [holds, BitVec.toInt_inj]

theorem check_precedence_iff {delay first second : Int64} :
    precedence.check delay first second = true ↔
      first.toInt + delay.toInt ≤ second.toInt := by
  rw [check, holds_precedence_iff, toInt_widen_add, toInt_widen]

theorem check_synchronization_iff {delay first second : Int64} :
    synchronization.check delay first second = true ↔
      first.toInt + delay.toInt = second.toInt := by
  rw [check, holds_synchronization_iff, toInt_widen_add, toInt_widen]

end Relation.Kind

end SchedulingLogic

import Mathlib.Data.List.Basic
import SchedulingLogic.Proofs.Rendering.Words
import SchedulingLogic.Proofs.Typing

/-!
# Written comparisons

A comparison of integers is written in words with single spaces between them: an integer,
perhaps a sign with a positive number, an operator, and another integer.  What is written so
can be read in one way only.  A relation between constants is, and what is read then is true
of the integers exactly when the relation checks.
-/

namespace SchedulingLogic

/-! ## Numerals -/

/-- Decimal digits, perhaps with zeros in front. -/
@[ext] structure Numeral where
  digits : List Char
  ne_nil : digits ≠ []
  isDigit : ∀ c ∈ digits, c.isDigit = true

namespace Numeral

def value (n : Numeral) : Nat := Nat.ofDigitChars 10 n.digits 0

def ofNat (n : Nat) : Numeral where
  digits := Nat.toDigits 10 n
  ne_nil := Nat.toDigits_ne_nil
  isDigit _ := isDigit_of_mem_toDigits

@[simp] theorem value_ofNat (n : Nat) : (ofNat n).value = n := Nat.ofDigitChars_ten_toDigits

theorem notMem_digits {c : Char} (hc : c.isDigit = false) (n : Numeral) : c ∉ n.digits := by
  intro h
  simp [n.isDigit c h] at hc

end Numeral

/-- A numeral, perhaps with a minus sign before it. -/
structure SignedNumeral where
  negative : Bool
  magnitude : Numeral

namespace SignedNumeral

def chars : SignedNumeral → List Char
  | ⟨false, n⟩ => n.digits
  | ⟨true, n⟩ => '-' :: n.digits

def value : SignedNumeral → Int
  | ⟨false, n⟩ => n.value
  | ⟨true, n⟩ => -n.value

def ofInt : Int → SignedNumeral
  | .ofNat n => ⟨false, .ofNat n⟩
  | .negSucc n => ⟨true, .ofNat (n + 1)⟩

@[simp] theorem value_ofInt (n : Int) : (ofInt n).value = n := by
  cases n with
  | ofNat n => simp [ofInt, value]
  | negSucc n => simp [ofInt, value, Int.negSucc_eq]

theorem chars_ofInt (n : Int) : (ofInt n).chars = n.repr.toList := by
  cases n with
  | ofNat n => exact (Json.toList_repr_ofNat n).symm
  | negSucc n => exact (Json.toList_repr_negSucc n).symm

theorem chars_ne_of_negative (n n' : Numeral) : chars ⟨false, n⟩ ≠ chars ⟨true, n'⟩ := by
  intro h
  have hminus : '-' ∈ n.digits := by
    rw [show n.digits = '-' :: n'.digits from h]
    exact List.mem_cons_self
  exact n.notMem_digits (by decide) hminus

theorem chars_injective {z z' : SignedNumeral} (h : z.chars = z'.chars) : z = z' := by
  obtain ⟨negative, n⟩ := z
  obtain ⟨negative', n'⟩ := z'
  cases negative with
  | false =>
      cases negative' with
      | false =>
          have hn : n = n' := Numeral.ext h
          rw [hn]
      | true => exact absurd h (chars_ne_of_negative n n')
  | true =>
      cases negative' with
      | false => exact absurd h.symm (chars_ne_of_negative n' n)
      | true =>
          have hn : n = n' := Numeral.ext (List.cons.inj h).2
          rw [hn]

theorem space_notMem_chars (z : SignedNumeral) : ' ' ∉ z.chars := by
  have hdigits := z.magnitude.notMem_digits (c := ' ') (by decide)
  obtain ⟨negative, n⟩ := z
  cases negative with
  | false => exact hdigits
  | true => simpa [chars] using hdigits

end SignedNumeral

/-! ## Comparisons -/

namespace Comparison

inductive Sign where
  | plus
  | minus

def Sign.mark : Sign → Char
  | plus => '+'
  | minus => '-'

/-- A positive number to be added or subtracted. -/
structure Shift where
  sign : Sign
  amount : Numeral
  pos : 0 < amount.value

namespace Shift

def value : Shift → Int
  | ⟨.plus, n, _⟩ => n.value
  | ⟨.minus, n, _⟩ => -n.value

def ofInt (n : Int) (h : n ≠ 0) : Shift where
  sign := if 0 < n then .plus else .minus
  amount := .ofNat n.natAbs
  pos := by simpa [Nat.pos_iff_ne_zero] using h

theorem mark_ofInt {n : Int} (h : n ≠ 0) :
    (ofInt n h).sign.mark = if 0 < n then '+' else '-' := by
  by_cases hpos : 0 < n <;> simp [ofInt, hpos, Sign.mark]

theorem digits_ofInt {n : Int} (h : n ≠ 0) :
    (ofInt n h).amount.digits = Nat.toDigits 10 n.natAbs := rfl

theorem value_ofInt {n : Int} (h : n ≠ 0) : (ofInt n h).value = n := by
  by_cases hpos : 0 < n
  · simp only [ofInt, if_pos hpos, value, Numeral.value_ofNat]
    omega
  · simp only [ofInt, if_neg hpos, value, Numeral.value_ofNat]
    omega

end Shift

inductive Operator where
  | atMost
  | equals

namespace Operator

def chars : Operator → List Char
  | atMost => ['<', '=']
  | equals => ['=', '=']

def Relates : Operator → Int → Int → Prop
  | atMost, x, y => x ≤ y
  | equals, x, y => x = y

instance : (op : Operator) → (x y : Int) → Decidable (op.Relates x y)
  | atMost, x, y => inferInstanceAs (Decidable (x ≤ y))
  | equals, x, y => inferInstanceAs (Decidable (x = y))

end Operator

end Comparison

structure Comparison where
  first : SignedNumeral
  shift : Option Comparison.Shift
  operator : Comparison.Operator
  second : SignedNumeral

namespace Comparison

def words : Comparison → List (List Char)
  | ⟨first, none, op, second⟩ => [first.chars, op.chars, second.chars]
  | ⟨first, some shift, op, second⟩ =>
      [first.chars, [shift.sign.mark], shift.amount.digits, op.chars, second.chars]

def chars (c : Comparison) : List Char := [' '].intercalate c.words

/-- The comparison is true of the integers. -/
def Holds (c : Comparison) : Prop :=
  c.operator.Relates (c.first.value + (c.shift.map Shift.value).getD 0) c.second.value

instance (c : Comparison) : Decidable c.Holds :=
  inferInstanceAs (Decidable (c.operator.Relates _ _))

theorem Sign.mark_injective {a b : Sign} (h : a.mark = b.mark) : a = b := by
  cases a <;> cases b <;> simp_all [mark]

theorem Shift.eq_of_written {d d' : Shift} (hmark : d.sign.mark = d'.sign.mark)
    (hdigits : d.amount.digits = d'.amount.digits) : d = d' := by
  obtain ⟨sign, amount, hpos⟩ := d
  obtain ⟨sign', amount', hpos'⟩ := d'
  obtain rfl : sign = sign' := Sign.mark_injective hmark
  obtain rfl : amount = amount' := Numeral.ext hdigits
  rfl

theorem Operator.chars_injective {a b : Operator} (h : a.chars = b.chars) : a = b := by
  cases a <;> cases b <;> simp_all [chars]

theorem words_injective {c c' : Comparison} (h : c.words = c'.words) : c = c' := by
  obtain ⟨first, shift, op, second⟩ := c
  obtain ⟨first', shift', op', second'⟩ := c'
  -- The number of words tells whether there is a shift.
  cases shift with
  | none =>
      cases shift' with
      | none =>
          simp only [words, List.cons.injEq, and_true] at h
          obtain ⟨hfirst, hop, hsecond⟩ := h
          obtain rfl := SignedNumeral.chars_injective hfirst
          obtain rfl := Operator.chars_injective hop
          obtain rfl := SignedNumeral.chars_injective hsecond
          rfl
      | some d' => simp [words] at h
  | some d =>
      cases shift' with
      | none => simp [words] at h
      | some d' =>
          simp only [words, List.cons.injEq, and_true] at h
          obtain ⟨hfirst, hmark, hdigits, hop, hsecond⟩ := h
          obtain rfl := SignedNumeral.chars_injective hfirst
          obtain rfl := Shift.eq_of_written hmark hdigits
          obtain rfl := Operator.chars_injective hop
          obtain rfl := SignedNumeral.chars_injective hsecond
          rfl

theorem space_notMem_of_mem_words {c : Comparison} : ∀ w ∈ c.words, ' ' ∉ w := by
  have hop : ' ' ∉ c.operator.chars := by cases c.operator <;> decide
  obtain ⟨first, shift, op, second⟩ := c
  cases shift with
  | none => simp [words, first.space_notMem_chars, second.space_notMem_chars, hop]
  | some d =>
      have hmark : ' ' ≠ d.sign.mark := by cases d.sign <;> decide
      have hdigits := d.amount.notMem_digits (c := ' ') (by decide)
      simp [words, first.space_notMem_chars, second.space_notMem_chars, hop, hmark, hdigits]

/-- A written comparison is read in one way only. -/
theorem chars_injective {c c' : Comparison} (h : c.chars = c'.chars) : c = c' := by
  have hsplit (d : Comparison) : d.chars.splitOn ' ' = d.words := by
    apply List.splitOn_intercalate ' ' space_notMem_of_mem_words
    obtain ⟨first, _ | shift, op, second⟩ := d <;> simp [words]
  apply words_injective
  rw [← hsplit c, ← hsplit c', h]

end Comparison

/-! ## Relations between constants -/

namespace Relation.Kind

open Comparison

def operator : Kind → Operator
  | precedence => .atMost
  | synchronization => .equals

/-- The comparison that is written for a relation between these constants. -/
def comparison (k : Kind) (delay x y : Int64) : Comparison where
  first := .ofInt x.toInt
  shift := if h : delay.toInt = 0 then none else some (.ofInt delay.toInt h)
  operator := k.operator
  second := .ofInt y.toInt

variable {k : Kind} {delay x y : Int64}

theorem chars_operator : k.operator.chars = k.symbol.toList := by cases k <;> rfl

theorem operator_relates_iff {m n : Int} : k.operator.Relates m n ↔ k.Relates m n := by
  cases k <;> rfl

theorem chars_comparison :
    (k.comparison delay x y).chars = (k.phrase delay (decimal x) (decimal y)).toList := by
  rw [toList_phrase, decimal, decimal, ← SignedNumeral.chars_ofInt, ← SignedNumeral.chars_ofInt]
  by_cases h : delay.toInt = 0
  · rw [link_of_eq_zero k h, ← chars_operator]
    simp [comparison, h, Comparison.chars, words]
  · rw [link_of_ne_zero k h, ← chars_operator, ← Shift.mark_ofInt h, ← Shift.digits_ofInt h]
    simp [comparison, h, Comparison.chars, words]

theorem holds_comparison_iff :
    (k.comparison delay x y).Holds ↔ k.Relates (x.toInt + delay.toInt) y.toInt := by
  have hshift : ((k.comparison delay x y).shift.map Shift.value).getD 0 = delay.toInt := by
    by_cases h : delay.toInt = 0
    · simp [comparison, h]
    · simp [comparison, h, Shift.value_ofInt]
  rw [Holds, hshift, ← operator_relates_iff]
  simp [comparison]

end Relation.Kind

namespace Relation

/-- What is written for a relation between constants can be read as one comparison only, and the
relation checks exactly when this comparison is true of the integers.  Nothing is looked up in a
schedule, and the sum of 128-bit words never wraps. -/
theorem text_means_check (k : Kind) (x y delay : Int64) :
    let r : Relation := ⟨k, .constant x, .constant y, delay⟩
    ∃ c : Comparison, (∀ c' : Comparison, c'.chars = r.text.toList ↔ c' = c) ∧
      r.check x y = decide c.Holds ∧
      (widen x + widen delay).toInt = x.toInt + delay.toInt ∧
      ∀ s, (r.toExpr.evaluate s).outcome = .ok (.bool (decide c.Holds)) := by
  intro r
  have htext : r.text = k.phrase delay (decimal x) (decimal y) := by
    simp [r, text, render, phrase]
  have hcheck : r.check x y = decide (k.comparison delay x y).Holds := by
    rw [Bool.eq_iff_iff, decide_eq_true_eq, Kind.holds_comparison_iff]
    exact Kind.check_iff_relates
  refine ⟨k.comparison delay x y, ?_, hcheck, toInt_widen_add x delay, ?_⟩
  · intro c'
    rw [htext, ← Kind.chars_comparison]
    exact ⟨Comparison.chars_injective, congrArg Comparison.chars⟩
  · intro s
    rw [Expr.outcome_evaluate, ← hcheck]
    rfl

/-- The magnitude of the smallest delay is no 64-bit integer. -/
example :
    (⟨.precedence, .constant (-1), .constant 7, Int64.minValue⟩ : Relation).text =
      "-1 - 9223372036854775808 <= 7" := by
  decide

end Relation

end SchedulingLogic

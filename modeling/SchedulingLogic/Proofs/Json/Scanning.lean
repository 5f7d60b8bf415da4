import Mathlib.Tactic.SplitIfs
import SchedulingLogic.Json.Reader
import SchedulingLogic.Json.Writer

/-!
# Scanning written strings and numbers

What is written for a string or an integer is read back from the front of any text,
as long as the rest cannot be taken for more of a number.
-/

namespace SchedulingLogic

namespace Json

/-! ## Strings -/

theorem codePoints_escaped {c d : Char} (h : escaped? c = some d) (rest : List Char) :
    codePoints ('\\' :: c :: rest) =
      (codePoints rest).map fun read => (d.toNat :: read.1, read.2) := by
  have hu : c ≠ 'u' := by
    rintro rfl
    simp [escaped?] at h
  rw [codePoints.eq_4 c rest fun _ _ _ _ _ hc _ => hu hc, h]
  cases codePoints rest <;> rfl

theorem codePoints_hex {a b c d : Char} {n : Nat} (h : hexQuad? a b c d = some n)
    (rest : List Char) :
    codePoints ('\\' :: 'u' :: a :: b :: c :: d :: rest) =
      (codePoints rest).map fun read => (n :: read.1, read.2) := by
  rw [codePoints.eq_3, h]
  cases codePoints rest <;> rfl

theorem codePoints_plain {c : Char} (hquote : c ≠ '"') (hslash : c ≠ '\\')
    (hcontrol : ¬ c.toNat < 0x20) (rest : List Char) :
    codePoints (c :: rest) =
      (codePoints rest).map fun read => (c.toNat :: read.1, read.2) := by
  rw [codePoints.eq_5 c rest hquote (fun _ _ _ _ _ hc _ => hslash hc)
    (fun _ _ hc _ => hslash hc), if_neg hcontrol]
  cases codePoints rest <;> rfl

theorem hexQuad?_control :
    ∀ n < 0x20, hexQuad? '0' '0' (Nat.digitChar (n / 16)) (Nat.digitChar (n % 16)) = some n := by
  decide

theorem codePoints_escape (c : Char) (rest : List Char) :
    codePoints (escape c ++ rest) =
      (codePoints rest).map fun read => (c.toNat :: read.1, read.2) := by
  unfold escape
  split_ifs with hself hback hfeed hline hreturn htab hcontrol
  · refine codePoints_escaped ?_ rest
    simp only [Bool.or_eq_true, decide_eq_true_eq] at hself
    rcases hself with rfl | rfl <;> rfl
  · rw [hback]
    exact codePoints_escaped rfl rest
  · rw [hfeed]
    exact codePoints_escaped rfl rest
  · rw [hline]
    exact codePoints_escaped rfl rest
  · rw [hreturn]
    exact codePoints_escaped rfl rest
  · rw [htab]
    exact codePoints_escaped rfl rest
  · exact codePoints_hex (hexQuad?_control c.toNat hcontrol) rest
  · simp only [Bool.or_eq_true, decide_eq_true_eq, not_or] at hself
    exact codePoints_plain hself.1 hself.2 hcontrol rest

theorem codePoints_flatMap_escape (cs rest : List Char) :
    codePoints (cs.flatMap escape ++ '"' :: rest) = some (cs.map Char.toNat, rest) := by
  induction cs with
  | nil => rfl
  | cons c cs ih =>
      rw [List.flatMap_cons, List.append_assoc, codePoints_escape, ih]
      rfl

theorem isHighHalf_toNat (c : Char) : isHighHalf c.toNat = false := by
  have hvalid : c.toNat < 0xd800 ∨ 0xdfff < c.toNat ∧ c.toNat < 0x110000 := c.valid
  simp only [isHighHalf, Bool.and_eq_false_iff, decide_eq_false_iff_not]
  omega

theorem isLowHalf_toNat (c : Char) : isLowHalf c.toNat = false := by
  have hvalid : c.toNat < 0xd800 ∨ 0xdfff < c.toNat ∧ c.toNat < 0x110000 := c.valid
  simp only [isLowHalf, Bool.and_eq_false_iff, decide_eq_false_iff_not]
  omega

theorem characters?_map_toNat (cs : List Char) : characters? (cs.map Char.toNat) = some cs := by
  induction cs with
  | nil => rfl
  | cons c cs ih =>
      rw [List.map_cons, characters?.eq_def]
      simp [isHighHalf_toNat, isLowHalf_toNat, ih]

theorem stringBody_flatMap_escape (s : String) (rest : List Char) :
    stringBody (s.toList.flatMap escape ++ '"' :: rest) = some (some s, rest) := by
  simp [stringBody, codePoints_flatMap_escape, characters?_map_toNat]

/-! ## Numbers -/

/-- The text does not go on with the number before it. -/
def EndsNumber (rest : List Char) : Prop :=
  ∀ c ∈ rest.head?, c.isDigit = false ∧ c ≠ '.' ∧ c ≠ 'e' ∧ c ≠ 'E'

theorem digits_append {ds rest : List Char} (hds : ∀ c ∈ ds, c.isDigit = true)
    (hrest : EndsNumber rest) : digits (ds ++ rest) = (ds, rest) := by
  have htake : rest.takeWhile Char.isDigit = [] := by
    cases rest with
    | nil => rfl
    | cons c rest => simp [(hrest c rfl).1]
  have hdrop : rest.dropWhile Char.isDigit = rest := by
    cases rest with
    | nil => rfl
    | cons c rest => simp [(hrest c rfl).1]
  rw [digits, List.takeWhile_append_of_pos hds, List.dropWhile_append_of_pos hds, htake, hdrop,
    List.append_nil]

theorem fraction_of_endsNumber {rest : List Char} (h : EndsNumber rest) :
    fraction rest = some ([], rest) := by
  cases rest with
  | nil => rfl
  | cons c rest => exact fraction.eq_2 _ fun _ hc => (h c rfl).2.1 (by simp_all)

theorem exponent_of_endsNumber {rest : List Char} (h : EndsNumber rest) :
    exponent rest = some ([], rest) := by
  cases rest with
  | nil => rfl
  | cons c rest => simp [exponent, (h c rfl).2.2.1, (h c rfl).2.2.2]

theorem digitChar_ne_zero : ∀ n < 10, 0 < n → Nat.digitChar n ≠ '0' := by
  decide

theorem head?_toDigits_ne_zero {n : Nat} (h : 0 < n) :
    (Nat.toDigits 10 n).head? ≠ some '0' := by
  induction n using Nat.strongRecOn with
  | ind n ih =>
      by_cases hlt : n < 10
      · rw [Nat.toDigits_of_lt_base hlt]
        simpa using digitChar_ne_zero n hlt h
      · have hle : 10 ≤ n := Nat.le_of_not_lt hlt
        have hquot := ih (n / 10) (Nat.div_lt_self h (by decide)) (Nat.div_pos hle (by decide))
        rw [Nat.toDigits_of_base_le (by decide) hle, List.head?_append]
        cases hd : Nat.toDigits 10 (n / 10) with
        | nil => exact absurd hd Nat.toDigits_ne_nil
        | cons c ds => simpa [hd] using hquot

theorem isWhole_toDigits (n : Nat) : isWhole (Nat.toDigits 10 n) = true := by
  cases n with
  | zero =>
      rw [Nat.toDigits_zero]
      rfl
  | succ n => simp [isWhole, head?_toDigits_ne_zero (Nat.succ_pos n)]

theorem magnitude_toDigits (negative : Bool) (n : Nat) (hn : ¬(negative = true ∧ n = 0))
    {rest : List Char} (h : EndsNumber rest) :
    magnitude negative (Nat.toDigits 10 n ++ rest) =
      some (integer (if negative then -n else n), rest) := by
  have hds : ∀ c ∈ Nat.toDigits 10 n, c.isDigit = true :=
    fun _ hc => Nat.isDigit_of_mem_toDigits (by decide) (by decide) hc
  have hdigits := digits_append hds h
  have hwhole : (guard (isWhole (Nat.toDigits 10 n)) : Option Unit) = some () :=
    if_pos (isWhole_toDigits n)
  rw [magnitude, hdigits]
  dsimp only
  rw [hwhole]
  simp [fraction_of_endsNumber h, exponent_of_endsNumber h, hn]

theorem toDigits_eq_cons (n : Nat) :
    ∃ c ds, Nat.toDigits 10 n = c :: ds ∧ c.isDigit = true := by
  cases hd : Nat.toDigits 10 n with
  | nil => exact absurd hd Nat.toDigits_ne_nil
  | cons c ds =>
      have hmem : c ∈ Nat.toDigits 10 n := by simp [hd]
      exact ⟨c, ds, rfl, Nat.isDigit_of_mem_toDigits (by decide) (by decide) hmem⟩

theorem toList_repr_ofNat (n : Nat) : (Int.ofNat n).repr.toList = Nat.toDigits 10 n := by
  simp [Int.repr]

theorem toList_repr_negSucc (n : Nat) :
    (Int.negSucc n).repr.toList = '-' :: Nat.toDigits 10 (n + 1) := by
  simp [Int.repr]

theorem toList_repr_eq_cons (n : Int) :
    ∃ c cs, n.repr.toList = c :: cs ∧ (c = '-' ∨ c.isDigit = true) := by
  cases n with
  | ofNat n =>
      obtain ⟨c, ds, hds, hc⟩ := toDigits_eq_cons n
      exact ⟨c, ds, (toList_repr_ofNat n).trans hds, Or.inr hc⟩
  | negSucc n => exact ⟨'-', _, toList_repr_negSucc n, Or.inl rfl⟩

theorem number_repr (n : Int) {rest : List Char} (h : EndsNumber rest) :
    number (n.repr.toList ++ rest) = some (integer n, rest) := by
  cases n with
  | ofNat n =>
      have hminus : ∀ cs, Nat.toDigits 10 n ++ rest = '-' :: cs → False := by
        intro cs hcs
        obtain ⟨c, ds, hds, hc⟩ := toDigits_eq_cons n
        have heq : c = '-' := by simpa [hds] using congrArg List.head? hcs
        simp [heq] at hc
      rw [toList_repr_ofNat, number.eq_2 _ hminus, magnitude_toDigits false n (by simp) h]
      rfl
  | negSucc n =>
      rw [toList_repr_negSucc, List.cons_append, number,
        magnitude_toDigits true (n + 1) (by simp) h]
      rfl

end Json

end SchedulingLogic

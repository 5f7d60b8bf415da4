import Mathlib.Tactic.SplitIfs
import SchedulingLogic.Expr.Traversal
import SchedulingLogic.Proofs.Json.Scanning
import SchedulingLogic.Proofs.PrefixCode
import SchedulingLogic.Rendering

/-!
# Words of rendered expressions

Leaves are written as single words.  A relation between leaves is two words with a link
between them, which tells the kind and the delay.  Both styles of rendering share this.
-/

namespace SchedulingLogic

/-! ## Points and labels -/

namespace Expr

mutual

/-- Replaces the points of an expression. -/
def mapPoints (f : TimePoint → TimePoint) : Expr → Expr
  | constant n => constant n
  | timePoint p => timePoint (f p)
  | relation k a b delay => relation k (mapPoints f a) (mapPoints f b) delay
  | not a => not (mapPoints f a)
  | and cs => and (mapPointsEach f cs)
  | or cs => or (mapPointsEach f cs)

def mapPointsEach (f : TimePoint → TimePoint) : List Expr → List Expr
  | [] => []
  | c :: cs => mapPoints f c :: mapPointsEach f cs

end

theorem mapPointsEach_eq_map (f : TimePoint → TimePoint) (cs : List Expr) :
    mapPointsEach f cs = cs.map (mapPoints f) := by
  induction cs with
  | nil => rfl
  | cons c cs ih => simp [mapPointsEach, ih]

@[simp] theorem mapPoints_and (f : TimePoint → TimePoint) (cs : List Expr) :
    (and cs).mapPoints f = and (cs.map (mapPoints f)) := by
  rw [mapPoints, mapPointsEach_eq_map]

@[simp] theorem mapPoints_or (f : TimePoint → TimePoint) (cs : List Expr) :
    (or cs).mapPoints f = or (cs.map (mapPoints f)) := by
  rw [mapPoints, mapPointsEach_eq_map]

/-- The expression without the ids of its intervals, which are never written. -/
def forgetIds (e : Expr) : Expr := e.mapPoints fun p => { p with interval := "" }

@[simp] theorem forgetIds_relation (k : Relation.Kind) (a b : Expr) (delay : Int64) :
    (relation k a b delay).forgetIds = relation k a.forgetIds b.forgetIds delay := rfl

@[simp] theorem forgetIds_not (a : Expr) : (not a).forgetIds = not a.forgetIds := rfl

@[simp] theorem forgetIds_and (cs : List Expr) :
    (and cs).forgetIds = and (cs.map forgetIds) := mapPoints_and _ cs

@[simp] theorem forgetIds_or (cs : List Expr) :
    (or cs).forgetIds = or (cs.map forgetIds) := mapPoints_or _ cs

def HasLeafOperands (e : Expr) : Prop :=
  ∀ r ∈ e.relations, r.first.isLeaf = true ∧ r.second.isLeaf = true

def LabelsAvoid (marks : List Char) (e : Expr) : Prop :=
  ∀ p ∈ e.timePoints, IsWord marks p.label.toList

instance (e : Expr) : Decidable e.HasLeafOperands :=
  inferInstanceAs (Decidable (∀ r ∈ e.relations, r.first.isLeaf = true ∧ r.second.isLeaf = true))

instance (marks : List Char) (e : Expr) : Decidable (e.LabelsAvoid marks) :=
  inferInstanceAs (Decidable (∀ p ∈ e.timePoints, IsWord marks p.label.toList))

theorem HasLeafOperands.of_mem_args {c e : Expr} (h : e.HasLeafOperands) (hc : c ∈ e.args) :
    c.HasLeafOperands := fun r hr => h r (mem_relations_of_mem_args hc hr)

theorem LabelsAvoid.of_mem_args {marks : List Char} {c e : Expr} (h : e.LabelsAvoid marks)
    (hc : c ∈ e.args) : c.LabelsAvoid marks :=
  fun p hp => h p (mem_timePoints_of_mem_args hc hp)

theorem HasLeafOperands.relation {k : Relation.Kind} {a b : Expr} {delay : Int64}
    (h : (relation k a b delay).HasLeafOperands) : a.isLeaf = true ∧ b.isLeaf = true :=
  h ⟨k, a, b, delay⟩ (mem_relations_self ⟨k, a, b, delay⟩)

theorem LabelsAvoid.timePoint {marks : List Char} {p : TimePoint}
    (h : (timePoint p).LabelsAvoid marks) : IsWord marks p.label.toList :=
  h p (mem_timePoints_self p)

end Expr

/-! ## Leaves -/

/-- The characters around words, in either style. -/
def punctuation : List Char := [' ', ',', '(', ')', '~']

theorem notMem_punctuation_of_isDigit {c : Char} (h : c.isDigit = true) : c ∉ punctuation := by
  intro hc
  simp only [punctuation, List.mem_cons, List.not_mem_nil, or_false] at hc
  rcases hc with rfl | rfl | rfl | rfl | rfl <;> simp at h

theorem isDigit_of_mem_toDigits {n : Nat} {c : Char} (hc : c ∈ Nat.toDigits 10 n) :
    c.isDigit = true :=
  Nat.isDigit_of_mem_toDigits (by decide) (by decide) hc

theorem eq_minus_or_isDigit_of_mem_decimal {n : Int64} {c : Char}
    (hc : c ∈ (decimal n).toList) : c = '-' ∨ c.isDigit = true := by
  rw [decimal] at hc
  cases hn : n.toInt with
  | ofNat m =>
      rw [hn, Json.toList_repr_ofNat] at hc
      exact Or.inr (isDigit_of_mem_toDigits hc)
  | negSucc m =>
      rw [hn, Json.toList_repr_negSucc] at hc
      exact (List.mem_cons.mp hc).imp_right isDigit_of_mem_toDigits

theorem isWord_toDigits (n : Nat) : IsWord punctuation (Nat.toDigits 10 n) := fun _ hc =>
  notMem_punctuation_of_isDigit (isDigit_of_mem_toDigits hc)

theorem isWord_decimal (n : Int64) : IsWord punctuation (decimal n).toList := by
  intro c hc
  rcases eq_minus_or_isDigit_of_mem_decimal hc with rfl | hdigit
  · decide
  · exact notMem_punctuation_of_isDigit hdigit

theorem toDigits_injective {m n : Nat} (h : Nat.toDigits 10 m = Nat.toDigits 10 n) : m = n := by
  have hread := congrArg (fun ds => Nat.ofDigitChars 10 ds 0) h
  simpa [Nat.ofDigitChars_toDigits] using hread

theorem decimal_injective {m n : Int64} (h : decimal m = decimal n) : m = n := by
  have hend : Json.EndsNumber [] := by simp [Json.EndsNumber]
  have hread := Json.number_repr m.toInt hend
  rw [show m.toInt.repr = n.toInt.repr from h, Json.number_repr n.toInt hend] at hread
  simpa [Int64.toInt_inj, eq_comm] using hread

namespace TimePoint

theorem toList_text (p : TimePoint) :
    p.text.toList = p.label.toList ++ '.' :: p.endpoint.attributeName.toList := by
  simp [text, textAs]

theorem isWord_text {marks : List Char} (hmarks : marks ⊆ punctuation) {p : TimePoint}
    (h : IsWord marks p.label.toList) : IsWord marks p.text.toList := by
  have hattribute : ∀ c ∈ '.' :: p.endpoint.attributeName.toList, c ∉ punctuation := by
    cases p.endpoint <;> simp [Endpoint.attributeName, punctuation]
  intro c hc
  rw [toList_text] at hc
  rcases List.mem_append.mp hc with hc | hc
  · exact h c hc
  · exact fun hmark => hattribute c hc (hmarks hmark)

/-- Labels may contain anything: the last dot is the one before the attribute. -/
theorem text_inj {p q : TimePoint} (h : p.text = q.text) :
    p.label = q.label ∧ p.endpoint = q.endpoint := by
  have hword : ∀ e : Endpoint, IsWord ['.'] e.attributeName.toList.reverse := by
    intro e
    cases e <;> simp [IsWord, Endpoint.attributeName]
  have hreverse := congrArg (fun s => s.toList.reverse) h
  simp only [toList_text, List.reverse_append, List.reverse_cons, List.append_assoc,
    List.singleton_append] at hreverse
  obtain ⟨hattribute, hlabel⟩ := (hword _).append_inj (hword _)
    (beginsIn_cons_self _ _ _) (beginsIn_cons_self _ _ _) hreverse
  constructor
  · exact String.toList_inj.mp (List.reverse_injective (List.cons.inj hlabel).2)
  · exact Endpoint.attributeName_injective
      (String.toList_inj.mp (List.reverse_injective hattribute))

theorem text_ne_decimal (p : TimePoint) (n : Int64) : p.text ≠ decimal n := by
  intro h
  have hdot : '.' ∈ p.text.toList := by simp [toList_text]
  rw [h] at hdot
  rcases eq_minus_or_isDigit_of_mem_decimal hdot with hminus | hdigit
  · exact absurd hminus (by decide)
  · exact absurd hdigit (by decide)

end TimePoint

namespace Expr

@[simp] theorem render_constant (verbose : Bool) (n : Int64) :
    (constant n).render ⟨verbose, []⟩ = decimal n := by
  rw [render]

@[simp] theorem render_timePoint (verbose : Bool) (p : TimePoint) :
    (timePoint p).render ⟨verbose, []⟩ = p.text := by
  rw [render]
  rfl

/-- A leaf is written alike in both styles. -/
theorem render_of_isLeaf {e : Expr} (h : e.isLeaf = true) (verbose : Bool) :
    e.render ⟨verbose, []⟩ = e.text := by
  cases e with
  | constant n => simp [text]
  | timePoint p => simp [text]
  | _ => simp [isLeaf] at h

theorem isWord_text {marks : List Char} (hmarks : marks ⊆ punctuation) {e : Expr}
    (hleaf : e.isLeaf = true) (hlabels : e.LabelsAvoid marks) : IsWord marks e.text.toList := by
  cases e with
  | constant n =>
      rw [text, render_constant]
      exact fun c hc hmark => isWord_decimal n c hc (hmarks hmark)
  | timePoint p =>
      rw [text, render_timePoint]
      exact TimePoint.isWord_text hmarks hlabels.timePoint
  | _ => simp [isLeaf] at hleaf

theorem text_ne_nil {e : Expr} (h : e.isLeaf = true) : e.text.toList ≠ [] := by
  cases e with
  | constant n =>
      obtain ⟨c, cs, hdecimal, _⟩ := Json.toList_repr_eq_cons n.toInt
      rw [text, render_constant, decimal, hdecimal]
      exact List.cons_ne_nil c cs
  | timePoint p => simp [text, TimePoint.toList_text]
  | _ => cases h

theorem forgetIds_eq_of_text_eq {e e' : Expr} (hleaf : e.isLeaf = true)
    (hleaf' : e'.isLeaf = true) (h : e.text = e'.text) : e.forgetIds = e'.forgetIds := by
  cases e with
  | constant n =>
      cases e' with
      | constant m =>
          simp only [text, render_constant] at h
          rw [decimal_injective h]
      | timePoint q =>
          simp only [text, render_constant, render_timePoint] at h
          exact absurd h.symm (q.text_ne_decimal n)
      | _ => simp [isLeaf] at hleaf'
  | timePoint p =>
      cases e' with
      | constant m =>
          simp only [text, render_constant, render_timePoint] at h
          exact absurd h (p.text_ne_decimal m)
      | timePoint q =>
          simp only [text, render_timePoint] at h
          obtain ⟨hlabel, hendpoint⟩ := TimePoint.text_inj h
          simp only [forgetIds, mapPoints, hlabel, hendpoint]
      | _ => simp [isLeaf] at hleaf'
  | _ => simp [isLeaf] at hleaf

end Expr

/-! ## Links -/

namespace Relation.Kind

/-- What is written between the operands of a relation. -/
def link (k : Kind) (delay : Int64) : List Char := (k.phrase delay "" "").toList

theorem toList_phrase (k : Kind) (delay : Int64) (first second : String) :
    (k.phrase delay first second).toList =
      first.toList ++ (k.link delay ++ second.toList) := by
  unfold link phrase shifted
  split_ifs <;> simp

theorem link_of_eq_zero (k : Kind) {delay : Int64} (h : delay.toInt = 0) :
    k.link delay = ' ' :: (k.symbol.toList ++ [' ']) := by
  simp [link, phrase, shifted, h]

theorem link_of_ne_zero (k : Kind) {delay : Int64} (h : delay.toInt ≠ 0) :
    k.link delay = ' ' :: (if 0 < delay.toInt then '+' else '-') :: ' ' ::
      (Nat.toDigits 10 delay.toInt.natAbs ++ ' ' :: (k.symbol.toList ++ [' '])) := by
  simp only [link, phrase, shifted, if_neg h]
  split_ifs <;> simp

theorem symbol_append_inj {k k' : Kind} {rest rest' : List Char}
    (h : k.symbol.toList ++ ' ' :: rest = k'.symbol.toList ++ ' ' :: rest') :
    k = k' ∧ rest = rest' := by
  cases k <;> cases k' <;> simp_all [symbol]

theorem link_append_ne {delay delay' : Int64} (h : delay.toInt = 0) (h' : delay'.toInt ≠ 0)
    (k k' : Kind) (rest rest' : List Char) :
    k.link delay ++ rest ≠ k'.link delay' ++ rest' := by
  rw [link_of_eq_zero k h, link_of_ne_zero k' h']
  cases k <;> split_ifs <;> simp [symbol]

/-- Links are legible whatever follows them. -/
theorem link_append_inj {k k' : Kind} {delay delay' : Int64} {rest rest' : List Char}
    (h : k.link delay ++ rest = k'.link delay' ++ rest') :
    k = k' ∧ delay = delay' ∧ rest = rest' := by
  by_cases hzero : delay.toInt = 0
  · by_cases hzero' : delay'.toInt = 0
    · rw [link_of_eq_zero k hzero, link_of_eq_zero k' hzero'] at h
      simp only [List.cons_append, List.cons.injEq, true_and, List.append_assoc,
        List.nil_append] at h
      obtain ⟨hk, hrest⟩ := symbol_append_inj h
      exact ⟨hk, Int64.toInt_inj.mp (hzero.trans hzero'.symm), hrest⟩
    · exact absurd h (link_append_ne hzero hzero' k k' rest rest')
  · by_cases hzero' : delay'.toInt = 0
    · exact absurd h.symm (link_append_ne hzero' hzero k' k rest' rest)
    · rw [link_of_ne_zero k hzero, link_of_ne_zero k' hzero'] at h
      simp only [List.cons_append, List.cons.injEq, true_and, List.append_assoc,
        List.nil_append] at h
      obtain ⟨hsign, hrest⟩ := h
      obtain ⟨hdigits, hsymbol⟩ := (isWord_toDigits _).append_inj (isWord_toDigits _)
        (beginsIn_cons_self _ _ _) (beginsIn_cons_self _ _ _) hrest
      obtain ⟨hk, hrest⟩ := symbol_append_inj (List.cons.inj hsymbol).2
      have habs := toDigits_injective hdigits
      have hpos : 0 < delay.toInt ↔ 0 < delay'.toInt := by
        constructor
        · intro hd
          by_contra hd'
          simp [hd, hd'] at hsign
        · intro hd'
          by_contra hd
          simp [hd, hd'] at hsign
      exact ⟨hk, Int64.toInt_inj.mp (by omega), hrest⟩

/-- The second character of a link is part of no name. -/
theorem link_eq_cons_cons (k : Kind) (delay : Int64) :
    ∃ c rest, k.link delay = ' ' :: c :: rest ∧ c ∈ ['+', '-', '<', '='] := by
  by_cases h : delay.toInt = 0
  · rw [link_of_eq_zero k h]
    cases k <;> simp [symbol]
  · rw [link_of_ne_zero k h]
    split_ifs <;> simp

end Relation.Kind

end SchedulingLogic

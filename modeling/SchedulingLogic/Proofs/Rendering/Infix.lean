import SchedulingLogic.Proofs.Rendering.Words

/-!
# Reading the plain style

Apart from negations, a plain text is a chain of operands with joints between them.  An
operand is a word or stands in parentheses, so the chain is read from left to right, and
the joints tell which expression it is.
-/

namespace SchedulingLogic

/-- What stands between two operands. -/
inductive Joint where
  | link (kind : Relation.Kind) (delay : Int64)
  | and
  | or

namespace Joint

def text : Joint → List Char
  | link k delay => k.link delay
  | and => [' ', 'a', 'n', 'd', ' ']
  | or => [' ', 'o', 'r', ' ']

theorem text_eq_cons (j : Joint) : ∃ rest, j.text = ' ' :: rest := by
  cases j with
  | link k delay =>
      obtain ⟨c, rest, hlink, _⟩ := k.link_eq_cons_cons delay
      exact ⟨c :: rest, hlink⟩
  | and => exact ⟨_, rfl⟩
  | or => exact ⟨_, rfl⟩

theorem link_append_ne {c : Char} (hc : c ∉ ['+', '-', '<', '=']) (k : Relation.Kind)
    (delay : Int64) (rest rest' : List Char) : k.link delay ++ rest ≠ ' ' :: c :: rest' := by
  obtain ⟨d, tail, hlink, hd⟩ := k.link_eq_cons_cons delay
  rw [hlink]
  rintro h
  have heq : d = c := (List.cons.inj (List.cons.inj h).2).1
  exact hc (heq ▸ hd)

theorem text_append_inj {j j' : Joint} {rest rest' : List Char}
    (h : j.text ++ rest = j'.text ++ rest') : j = j' ∧ rest = rest' := by
  cases j with
  | link k delay =>
      cases j' with
      | link k' delay' =>
          obtain ⟨rfl, rfl, hrest⟩ := Relation.Kind.link_append_inj h
          exact ⟨rfl, hrest⟩
      | and => exact absurd h (link_append_ne (by decide) k delay _ _)
      | or => exact absurd h (link_append_ne (by decide) k delay _ _)
  | and =>
      cases j' with
      | link k' delay' => exact absurd h.symm (link_append_ne (by decide) k' delay' _ _)
      | and => simpa [text] using h
      | or => simp [text] at h
  | or =>
      cases j' with
      | link k' delay' => exact absurd h.symm (link_append_ne (by decide) k' delay' _ _)
      | and => simp [text] at h
      | or => simpa [text] using h

end Joint

namespace Expr

/-- Whether a combinator has operands enough to be written with joints. -/
def isWide : Expr → Bool
  | and cs | or cs => 2 ≤ cs.length
  | constant _ | timePoint _ | relation .. | not _ => true

/-- What the plain style needs to be read in one way only. -/
structure IsPlainReadable (e : Expr) : Prop where
  leafOperands : e.HasLeafOperands
  wide : ∀ x ∈ e.preorder, x.isWide = true
  labels : e.LabelsAvoid [' ', '(', ')', '~']

instance (e : Expr) : Decidable e.IsPlainReadable :=
  decidable_of_iff
    (e.HasLeafOperands ∧ (∀ x ∈ e.preorder, x.isWide = true) ∧
      e.LabelsAvoid [' ', '(', ')', '~'])
    ⟨fun ⟨hleaf, hwide, hlabels⟩ => ⟨hleaf, hwide, hlabels⟩,
      fun ⟨hleaf, hwide, hlabels⟩ => ⟨hleaf, hwide, hlabels⟩⟩

theorem IsPlainReadable.of_mem_args {c e : Expr} (h : e.IsPlainReadable) (hc : c ∈ e.args) :
    c.IsPlainReadable where
  leafOperands := h.leafOperands.of_mem_args hc
  wide x hx := h.wide x (mem_preorder_of_mem_args hc hx)
  labels := h.labels.of_mem_args hc

theorem IsPlainReadable.isWide {e : Expr} (h : e.IsPlainReadable) : e.isWide = true := by
  apply h.wide
  rw [preorder_eq]
  exact List.mem_cons_self

def operandChars (e : Expr) : List Char := (parenthesize e e.text).toList

theorem operandChars_of_isLeaf {e : Expr} (h : e.isLeaf = true) :
    e.operandChars = e.text.toList := by
  rw [operandChars, parenthesize, if_pos h]

theorem operandChars_of_not_isLeaf {e : Expr} (h : e.isLeaf = false) :
    e.operandChars = '(' :: (e.text.toList ++ [')']) := by
  simp [operandChars, parenthesize, h]

/-- The first operand, and the others with the joints before them. -/
def chain : Expr → Option (Expr × List (Joint × Expr))
  | constant n => some (constant n, [])
  | timePoint p => some (timePoint p, [])
  | relation k a b delay => some (a, [(.link k delay, b)])
  | and (c :: cs) => some (c, cs.map fun c => (.and, c))
  | or (c :: cs) => some (c, cs.map fun c => (.or, c))
  | and [] | or [] | not _ => none

def chainChars (x : Joint × Expr) : List Char := x.1.text ++ x.2.operandChars

theorem toList_text_not (a : Expr) : (not a).text.toList = '~' :: a.operandChars := by
  simp [text, render, operandChars]

theorem toList_combine {name : String} {j : Joint} (hj : (" " ++ name ++ " ").toList = j.text)
    (c : Expr) (cs : List Expr) :
    (combine {} name (renderEach {} (c :: cs))).toList =
      c.operandChars ++ (cs.map fun c => (j, c)).flatMap chainChars := by
  have hchars : (renderEach {} (c :: cs)).map String.toList = (c :: cs).map operandChars := by
    rw [renderEach_eq_map, List.map_map]
    rfl
  rw [combine, if_neg (by decide), String.toList_intercalate, hj, hchars, List.map_cons,
    intercalate_cons_eq_flatMap, List.flatMap_map, List.flatMap_map]
  rfl

theorem toList_text_of_chain {e first : Expr} {others : List (Joint × Expr)}
    (he : e.IsPlainReadable) (h : e.chain = some (first, others)) :
    e.text.toList = first.operandChars ++ others.flatMap chainChars := by
  cases e with
  | constant n =>
      cases h
      rw [operandChars_of_isLeaf rfl, List.flatMap_nil, List.append_nil]
  | timePoint p =>
      cases h
      rw [operandChars_of_isLeaf rfl, List.flatMap_nil, List.append_nil]
  | relation k a b delay =>
      cases h
      obtain ⟨ha, hb⟩ := he.leafOperands.relation
      rw [text, render, Relation.Kind.toList_phrase, ← text, ← text, List.flatMap_singleton,
        chainChars, operandChars_of_isLeaf ha, operandChars_of_isLeaf hb]
      rfl
  | not a => cases h
  | and cs =>
      cases cs with
      | nil => cases h
      | cons c cs =>
          cases h
          rw [text, render]
          exact toList_combine rfl first cs
  | or cs =>
      cases cs with
      | nil => cases h
      | cons c cs =>
          cases h
          rw [text, render]
          exact toList_combine rfl first cs

theorem exists_not_of_chain_eq_none {e : Expr} (he : e.IsPlainReadable) (h : e.chain = none) :
    ∃ a, e = not a := by
  have hwide := he.isWide
  cases e with
  | not a => exact ⟨a, rfl⟩
  | and cs =>
      cases cs with
      | nil => cases hwide
      | cons c cs => cases h
  | or cs =>
      cases cs with
      | nil => cases hwide
      | cons c cs => cases h
  | _ => cases h

/-- The expression that a chain of operands is. -/
def ofChain (first : Expr) : List (Joint × Expr) → Expr
  | [] => first
  | (.link k delay, b) :: _ => relation k first b delay
  | (.and, c) :: others => and (first :: c :: others.map Prod.snd)
  | (.or, c) :: others => or (first :: c :: others.map Prod.snd)

def forgetJointIds (x : Joint × Expr) : Joint × Expr := (x.1, x.2.forgetIds)

theorem forgetIds_of_chain {e first : Expr} {others : List (Joint × Expr)}
    (he : e.IsPlainReadable) (h : e.chain = some (first, others)) :
    e.forgetIds = ofChain first.forgetIds (others.map forgetJointIds) := by
  have hwide := he.isWide
  cases e with
  | constant n =>
      cases h
      rfl
  | timePoint p =>
      cases h
      rfl
  | relation k a b delay =>
      cases h
      rfl
  | not a => cases h
  | and cs =>
      match cs, hwide, h with
      | c :: d :: cs, _, h =>
          cases h
          simp [ofChain, forgetJointIds]
  | or cs =>
      match cs, hwide, h with
      | c :: d :: cs, _, h =>
          cases h
          simp [ofChain, forgetJointIds]

theorem mem_args_of_chain {e first : Expr} {others : List (Joint × Expr)}
    (h : e.chain = some (first, others)) :
    (first ∈ e.args ∨ first = e ∧ e.isLeaf = true) ∧ ∀ x ∈ others, x.2 ∈ e.args := by
  cases e with
  | constant n =>
      cases h
      exact ⟨Or.inr ⟨rfl, rfl⟩, by simp⟩
  | timePoint p =>
      cases h
      exact ⟨Or.inr ⟨rfl, rfl⟩, by simp⟩
  | relation k a b delay =>
      cases h
      simp [args]
  | not a => cases h
  | and cs =>
      cases cs with
      | nil => cases h
      | cons c cs =>
          cases h
          exact ⟨Or.inl List.mem_cons_self, by simp +contextual [args]⟩
  | or cs =>
      cases cs with
      | nil => cases h
      | cons c cs =>
          cases h
          exact ⟨Or.inl List.mem_cons_self, by simp +contextual [args]⟩

/-! ## Legibility -/

/-- An expression as the plain style writes it, up to the end or a closing parenthesis. -/
abbrev IsPlainLegible (e : Expr) : Prop :=
  Legible (fun e => e.text.toList) forgetIds IsPlainReadable (BeginsIn [')']) e

/-- An operand, which ends before a space too. -/
abbrev IsPlainOperand (e : Expr) : Prop :=
  Legible operandChars forgetIds IsPlainReadable (BeginsIn [' ', ')']) e

theorem isWord_text_of_isPlainReadable {e : Expr} (he : e.IsPlainReadable)
    (hleaf : e.isLeaf = true) : IsWord [' ', '(', ')', '~'] e.operandChars := by
  rw [operandChars_of_isLeaf hleaf]
  exact isWord_text (by decide) hleaf he.labels

theorem isPlainOperand_of_isPlainLegible {e : Expr} (he : e.IsPlainReadable)
    (h : e.isLeaf = false → e.IsPlainLegible) : e.IsPlainOperand := by
  intro y rest rest' hy hrest hrest' htext
  cases hleaf : e.isLeaf with
  | true =>
      have hword := isWord_text_of_isPlainReadable he hleaf
      cases hleaf' : y.isLeaf with
      | true =>
          have hword' := isWord_text_of_isPlainReadable hy hleaf'
          obtain ⟨heq, hr⟩ := hword.append_inj hword' (hrest.mono (by decide))
            (hrest'.mono (by decide)) htext
          rw [operandChars_of_isLeaf hleaf, operandChars_of_isLeaf hleaf'] at heq
          exact ⟨forgetIds_eq_of_text_eq hleaf hleaf' (String.toList_inj.mp heq), hr⟩
      | false =>
          rw [operandChars_of_not_isLeaf hleaf'] at htext
          exact absurd htext (hword.append_ne_cons hrest (by decide) (by decide) _)
  | false =>
      rw [operandChars_of_not_isLeaf hleaf] at htext
      cases hleaf' : y.isLeaf with
      | true =>
          have hword' := isWord_text_of_isPlainReadable hy hleaf'
          exact absurd htext.symm (hword'.append_ne_cons hrest' (by decide) (by decide) _)
      | false =>
          rw [operandChars_of_not_isLeaf hleaf'] at htext
          simp only [List.cons_append, List.append_assoc, List.cons.injEq, true_and,
            List.nil_append] at htext
          obtain ⟨himage, hr⟩ := h hleaf hy (beginsIn_cons_self ')' [] rest)
            (beginsIn_cons_self ')' [] rest') htext
          exact ⟨himage, (List.cons.inj hr).2⟩

theorem operandChars_append_ne {e : Expr} (he : e.IsPlainReadable) {rest : List Char}
    (hrest : BeginsIn [' ', ')'] rest) (rest' : List Char) :
    e.operandChars ++ rest ≠ '~' :: rest' := by
  cases hleaf : e.isLeaf with
  | true =>
      have hword := isWord_text_of_isPlainReadable he hleaf
      exact hword.append_ne_cons hrest (by decide) (by decide) rest'
  | false => simp [operandChars_of_not_isLeaf hleaf]

theorem legible_chainChars {x : Joint × Expr} (h : x.2.IsPlainOperand) :
    Legible chainChars forgetJointIds (fun y => y.2.IsPlainReadable) (BeginsIn [' ', ')']) x := by
  intro y rest rest' hy hrest hrest' htext
  simp only [chainChars, List.append_assoc] at htext
  obtain ⟨hjoint, hoperand⟩ := Joint.text_append_inj htext
  obtain ⟨himage, hr⟩ := h hy hrest hrest' hoperand
  exact ⟨Prod.ext hjoint himage, hr⟩

theorem chainChars_append_eq_cons (x : Joint × Expr) (rest : List Char) :
    ∃ tail, chainChars x ++ rest = ' ' :: tail := by
  obtain ⟨tail, htext⟩ := x.1.text_eq_cons
  rw [chainChars, htext]
  exact ⟨_, rfl⟩

theorem legible_chain {others : List (Joint × Expr)} (h : ∀ x ∈ others, x.2.IsPlainOperand) :
    Legible (fun xs => xs.flatMap chainChars) (fun xs => xs.map forgetJointIds)
      (fun ys => ∀ y ∈ ys, y.2.IsPlainReadable) (BeginsIn [')']) others := by
  have hlegible := fun x hx => legible_chainChars (h x hx)
  refine Legible.flatMap (fun rest hrest => hrest.mono (by decide)) ?_ ?_ hlegible
  · intro x rest
    obtain ⟨tail, htext⟩ := chainChars_append_eq_cons x rest
    rw [htext]
    exact beginsIn_cons_iff.mpr (by decide)
  · intro x rest
    obtain ⟨tail, htext⟩ := chainChars_append_eq_cons x rest
    rw [htext, beginsIn_cons_iff]
    decide

theorem beginsIn_flatMap_chainChars (others : List (Joint × Expr)) {rest : List Char}
    (hrest : BeginsIn [')'] rest) : BeginsIn [' ', ')'] (others.flatMap chainChars ++ rest) := by
  cases others with
  | nil => exact hrest.mono (by decide)
  | cons x others =>
      obtain ⟨tail, htext⟩ := chainChars_append_eq_cons x (others.flatMap chainChars ++ rest)
      rw [List.flatMap_cons, List.append_assoc, htext]
      exact beginsIn_cons_iff.mpr (by decide)

theorem isPlainReadable_of_chain {e first : Expr} {others : List (Joint × Expr)}
    (he : e.IsPlainReadable) (h : e.chain = some (first, others)) :
    first.IsPlainReadable ∧ ∀ x ∈ others, x.2.IsPlainReadable := by
  obtain ⟨hfirst, hothers⟩ := mem_args_of_chain h
  constructor
  · rcases hfirst with hfirst | ⟨rfl, _⟩
    · exact he.of_mem_args hfirst
    · exact he
  · intro x hx
    exact he.of_mem_args (hothers x hx)

theorem text_append_ne_of_chain {e first : Expr} {others : List (Joint × Expr)}
    (he : e.IsPlainReadable) (h : e.chain = some (first, others)) {rest : List Char}
    (hrest : BeginsIn [')'] rest) (rest' : List Char) : e.text.toList ++ rest ≠ '~' :: rest' := by
  obtain ⟨hfirst, _⟩ := isPlainReadable_of_chain he h
  rw [toList_text_of_chain he h, List.append_assoc]
  exact operandChars_append_ne hfirst (beginsIn_flatMap_chainChars others hrest) rest'

theorem isPlainLegible_not {a : Expr} (ha : a.IsPlainOperand) : (not a).IsPlainLegible := by
  intro y rest rest' hy hrest hrest' htext
  cases hchain : y.chain with
  | none =>
      obtain ⟨b, rfl⟩ := exists_not_of_chain_eq_none hy hchain
      have hb : b.IsPlainReadable := hy.of_mem_args List.mem_cons_self
      simp only [toList_text_not, List.cons_append, List.cons.injEq, true_and] at htext
      obtain ⟨himage, hr⟩ := ha hb (hrest.mono (by decide)) (hrest'.mono (by decide)) htext
      exact ⟨by rw [forgetIds_not, forgetIds_not, himage], hr⟩
  | some pair =>
      simp only [toList_text_not, List.cons_append] at htext
      exact absurd htext.symm (text_append_ne_of_chain hy hchain hrest' _)

theorem isPlainLegible_of_chain {e first : Expr} {others : List (Joint × Expr)}
    (he : e.IsPlainReadable) (h : e.chain = some (first, others)) (hfirst : first.IsPlainOperand)
    (hothers : ∀ x ∈ others, x.2.IsPlainOperand) : e.IsPlainLegible := by
  intro y rest rest' hy hrest hrest' htext
  cases hchain : y.chain with
  | none =>
      obtain ⟨b, rfl⟩ := exists_not_of_chain_eq_none hy hchain
      simp only [toList_text_not, List.cons_append] at htext
      exact absurd htext (text_append_ne_of_chain he h hrest _)
  | some pair =>
      obtain ⟨first', others'⟩ := pair
      obtain ⟨hvalid, hvalids⟩ := isPlainReadable_of_chain hy hchain
      simp only [toList_text_of_chain he h, toList_text_of_chain hy hchain,
        List.append_assoc] at htext
      obtain ⟨himage, htail⟩ := hfirst hvalid (beginsIn_flatMap_chainChars others hrest)
        (beginsIn_flatMap_chainChars others' hrest') htext
      obtain ⟨himages, hr⟩ := legible_chain hothers hvalids hrest hrest' htail
      dsimp only at himages
      exact ⟨by rw [forgetIds_of_chain he h, forgetIds_of_chain hy hchain, himage, himages], hr⟩

theorem isPlainLegible {e : Expr} (he : e.IsPlainReadable) : e.IsPlainLegible := by
  induction e using inductionOn with
  | step e ih =>
      -- An operand that is no leaf ends at its own parenthesis, so what follows is free.
      have hargs : ∀ c ∈ e.args, c.IsPlainOperand := by
        intro c hc
        have hreadable := he.of_mem_args hc
        exact isPlainOperand_of_isPlainLegible hreadable fun _ => ih c hc hreadable
      cases hchain : e.chain with
      | none =>
          obtain ⟨a, rfl⟩ := exists_not_of_chain_eq_none he hchain
          exact isPlainLegible_not (hargs a List.mem_cons_self)
      | some pair =>
          obtain ⟨first, others⟩ := pair
          obtain ⟨hfirst, hothers⟩ := mem_args_of_chain hchain
          refine isPlainLegible_of_chain he hchain ?_ fun x hx => hargs x.2 (hothers x hx)
          rcases hfirst with hfirst | ⟨rfl, hleaf⟩
          · exact hargs first hfirst
          · exact isPlainOperand_of_isPlainLegible he (by simp [hleaf])

/-- Two expressions with the same plain text are the same but for the ids of intervals. -/
theorem text_unambiguous {e₁ e₂ : Expr} (h₁ : e₁.IsPlainReadable) (h₂ : e₂.IsPlainReadable)
    (h : e₁.text = e₂.text) : e₁.forgetIds = e₂.forgetIds := by
  have hend : BeginsIn [')'] [] := by simp [BeginsIn]
  exact (isPlainLegible h₁ h₂ hend hend (congrArg (fun s => s.toList ++ []) h)).1

/-- Two ids for one label, a negative constant and a negative delay, a nested disjunction. -/
theorem text_unambiguous_other_ids :
    let e (id : String) : Expr :=
      and [not (relation .precedence (timePoint ⟨id, "x", .finish⟩) (constant (-5)) (-2)),
        or [timePoint ⟨id, "and", .start⟩, constant 0, not (constant 1)]]
    (e "a").IsPlainReadable ∧ (e "b").IsPlainReadable ∧ (e "a").text = (e "b").text ∧
      e "a" ≠ e "b" ∧ (e "a").forgetIds = (e "b").forgetIds :=
  ⟨by decide, by decide, by decide, by decide,
    text_unambiguous (by decide) (by decide) (by decide)⟩

end Expr

end SchedulingLogic

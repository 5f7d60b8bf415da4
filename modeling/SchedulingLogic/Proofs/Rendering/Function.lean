import SchedulingLogic.Proofs.Rendering.Words

/-!
# Reading the verbose style

A verbose text begins with a word: a leaf, the first operand of a relation or the name of
a combinator.  The mark after the word tells which of these it is.  The operands of a
combinator stand between parentheses with commas between them, so combinators without
operands are read too.
-/

namespace SchedulingLogic

namespace Expr

/-- What the verbose style needs to be read in one way only. -/
structure IsVerboseReadable (e : Expr) : Prop where
  leafOperands : e.HasLeafOperands
  labels : e.LabelsAvoid [' ', ',', '(', ')']

instance (e : Expr) : Decidable e.IsVerboseReadable :=
  decidable_of_iff (e.HasLeafOperands ∧ e.LabelsAvoid [' ', ',', '(', ')'])
    ⟨fun ⟨hleaf, hlabels⟩ => ⟨hleaf, hlabels⟩, fun ⟨hleaf, hlabels⟩ => ⟨hleaf, hlabels⟩⟩

theorem IsVerboseReadable.of_mem_args {c e : Expr} (h : e.IsVerboseReadable) (hc : c ∈ e.args) :
    c.IsVerboseReadable where
  leafOperands := h.leafOperands.of_mem_args hc
  labels := h.labels.of_mem_args hc

/-! ## The first word and what follows it -/

/-- The name under which a combinator is written as a function. -/
inductive Callee where
  | not
  | and
  | or
  deriving DecidableEq

def Callee.name : Callee → List Char
  | not => ['n', 'o', 't']
  | and => ['a', 'n', 'd']
  | or => ['o', 'r']

theorem Callee.name_injective {f g : Callee} (h : f.name = g.name) : f = g := by
  cases f <;> cases g <;> simp [name] at h ⊢

theorem Callee.isWord_name (f : Callee) : IsWord [' ', ',', '(', ')'] f.name := by
  cases f <;> decide

def callee? : Expr → Option Callee
  | constant _ | timePoint _ | relation .. => none
  | not _ => some .not
  | and _ => some .and
  | or _ => some .or

def verboseChars (e : Expr) : List Char := (e.render { verbose := true }).toList

theorem verboseChars_of_isLeaf {e : Expr} (h : e.isLeaf = true) :
    e.verboseChars = e.text.toList := by
  rw [verboseChars, render_of_isLeaf h]

/-- Operands with commas between them, and the closing parenthesis. -/
def closingChars (cs : List Expr) : List Char :=
  List.intercalate [',', ' '] (cs.map verboseChars) ++ [')']

def firstWord : Expr → List Char
  | constant n => (constant n).text.toList
  | timePoint p => (timePoint p).text.toList
  | relation _ a _ _ => a.text.toList
  | not _ => Callee.not.name
  | and _ => Callee.and.name
  | or _ => Callee.or.name

def afterFirstWord : Expr → List Char
  | constant _ | timePoint _ => []
  | relation k _ b delay => k.link delay ++ b.verboseChars
  | not a => '(' :: closingChars [a]
  | and cs | or cs => '(' :: closingChars cs

theorem firstWord_of_isLeaf {e : Expr} (h : e.isLeaf = true) : e.firstWord = e.text.toList := by
  cases e with
  | constant n => rfl
  | timePoint p => rfl
  | _ => cases h

theorem afterFirstWord_of_isLeaf {e : Expr} (h : e.isLeaf = true) : e.afterFirstWord = [] := by
  cases e with
  | constant n => rfl
  | timePoint p => rfl
  | _ => cases h

theorem afterFirstWord_relation (k : Relation.Kind) (a b : Expr) (delay : Int64) :
    ∃ tail, (relation k a b delay).afterFirstWord = ' ' :: tail := by
  obtain ⟨c, tail, hlink, _⟩ := k.link_eq_cons_cons delay
  rw [afterFirstWord, hlink]
  exact ⟨_, rfl⟩

theorem firstWord_of_callee? {e : Expr} {f : Callee} (h : e.callee? = some f) :
    e.firstWord = f.name := by
  cases e <;> cases h <;> rfl

theorem afterFirstWord_of_callee? {e : Expr} {f : Callee} (h : e.callee? = some f) :
    e.afterFirstWord = '(' :: closingChars e.args := by
  cases e <;> cases h <;> rfl

theorem toList_combine_verbose (name : String) (cs : List Expr) :
    (combine { verbose := true } name (renderEach { verbose := true } cs)).toList =
      name.toList ++ '(' :: closingChars cs := by
  have hchars : (renderEach { verbose := true } cs).map String.toList = cs.map verboseChars := by
    rw [renderEach_eq_map, List.map_map]
    rfl
  rw [combine, if_pos rfl, String.toList_append, String.toList_append, String.toList_append,
    String.toList_intercalate, hchars, List.append_assoc, List.append_assoc]
  rfl

theorem verboseChars_eq {e : Expr} (he : e.IsVerboseReadable) :
    e.verboseChars = e.firstWord ++ e.afterFirstWord := by
  cases e with
  | constant n => rw [verboseChars_of_isLeaf rfl, afterFirstWord, List.append_nil, firstWord]
  | timePoint p => rw [verboseChars_of_isLeaf rfl, afterFirstWord, List.append_nil, firstWord]
  | relation k a b delay =>
      obtain ⟨ha, _⟩ := he.leafOperands.relation
      rw [verboseChars, render, Relation.Kind.toList_phrase, render_of_isLeaf ha]
      rfl
  | not a =>
      rw [verboseChars, render, if_pos rfl]
      simp [firstWord, Callee.name, afterFirstWord, closingChars, verboseChars]
  | and cs =>
      rw [verboseChars, render, toList_combine_verbose]
      rfl
  | or cs =>
      rw [verboseChars, render, toList_combine_verbose]
      rfl

theorem isWord_firstWord {e : Expr} (he : e.IsVerboseReadable) :
    IsWord [' ', ',', '(', ')'] e.firstWord := by
  cases e with
  | constant n => exact isWord_text (by decide) rfl he.labels
  | timePoint p => exact isWord_text (by decide) rfl he.labels
  | relation k a b delay =>
      obtain ⟨ha, _⟩ := he.leafOperands.relation
      exact isWord_text (by decide) ha (he.labels.of_mem_args (by simp [args]))
  | not a => exact Callee.isWord_name .not
  | and cs => exact Callee.isWord_name .and
  | or cs => exact Callee.isWord_name .or

theorem firstWord_ne_nil {e : Expr} (he : e.IsVerboseReadable) : e.firstWord ≠ [] := by
  cases e with
  | relation k a b delay => exact text_ne_nil he.leafOperands.relation.1
  | constant n => exact text_ne_nil rfl
  | timePoint p => exact text_ne_nil rfl
  | _ => simp [firstWord, Callee.name]

theorem beginsIn_afterFirstWord (e : Expr) {rest : List Char} (hrest : BeginsIn [',', ')'] rest) :
    BeginsIn [' ', ',', '(', ')'] (e.afterFirstWord ++ rest) := by
  cases e with
  | constant n => exact hrest.mono (by decide)
  | timePoint p => exact hrest.mono (by decide)
  | relation k a b delay =>
      obtain ⟨tail, hafter⟩ := afterFirstWord_relation k a b delay
      rw [hafter]
      exact beginsIn_cons_iff.mpr (by decide)
  | _ => exact beginsIn_cons_iff.mpr (by decide)

/-! ## What the mark after the first word tells -/

theorem isLeaf_of_beginsIn {e : Expr} {rest : List Char}
    (h : BeginsIn [',', ')'] (e.afterFirstWord ++ rest)) : e.isLeaf = true := by
  cases e with
  | constant n => rfl
  | timePoint p => rfl
  | relation k a b delay =>
      obtain ⟨tail, hafter⟩ := afterFirstWord_relation k a b delay
      rw [hafter] at h
      exact absurd (beginsIn_cons_iff.mp h) (by decide)
  | _ => exact absurd (beginsIn_cons_iff.mp h) (by decide)

theorem exists_relation_of_afterFirstWord {e : Expr} {rest tail : List Char}
    (hrest : BeginsIn [',', ')'] rest) (h : e.afterFirstWord ++ rest = ' ' :: tail) :
    ∃ k a b delay, e = relation k a b delay := by
  cases e with
  | constant n =>
      rw [afterFirstWord, List.nil_append] at h
      exact absurd (beginsIn_cons_iff.mp (h ▸ hrest)) (by decide)
  | timePoint p =>
      rw [afterFirstWord, List.nil_append] at h
      exact absurd (beginsIn_cons_iff.mp (h ▸ hrest)) (by decide)
  | relation k a b delay => exact ⟨k, a, b, delay, rfl⟩
  | _ => simp [afterFirstWord] at h

theorem exists_callee_of_afterFirstWord {e : Expr} {rest tail : List Char}
    (hrest : BeginsIn [',', ')'] rest) (h : e.afterFirstWord ++ rest = '(' :: tail) :
    ∃ f, e.callee? = some f := by
  cases e with
  | constant n =>
      rw [afterFirstWord, List.nil_append] at h
      exact absurd (beginsIn_cons_iff.mp (h ▸ hrest)) (by decide)
  | timePoint p =>
      rw [afterFirstWord, List.nil_append] at h
      exact absurd (beginsIn_cons_iff.mp (h ▸ hrest)) (by decide)
  | relation k a b delay =>
      obtain ⟨tail, hafter⟩ := afterFirstWord_relation k a b delay
      simp [hafter] at h
  | _ => exact ⟨_, rfl⟩

/-! ## Legibility -/

/-- An expression as the verbose style writes it, up to the end, a comma or a closing
parenthesis. -/
abbrev IsVerboseLegible (e : Expr) : Prop :=
  Legible verboseChars forgetIds IsVerboseReadable (BeginsIn [',', ')']) e

theorem verboseChars_append_inj {e y : Expr} (he : e.IsVerboseReadable)
    (hy : y.IsVerboseReadable) {rest rest' : List Char} (hrest : BeginsIn [',', ')'] rest)
    (hrest' : BeginsIn [',', ')'] rest') (h : e.verboseChars ++ rest = y.verboseChars ++ rest') :
    e.firstWord = y.firstWord ∧ e.afterFirstWord ++ rest = y.afterFirstWord ++ rest' := by
  rw [verboseChars_eq he, verboseChars_eq hy, List.append_assoc, List.append_assoc] at h
  exact (isWord_firstWord he).append_inj (isWord_firstWord hy)
    (beginsIn_afterFirstWord e hrest) (beginsIn_afterFirstWord y hrest') h

theorem verboseChars_append_ne {e : Expr} (he : e.IsVerboseReadable) (rest rest' : List Char) :
    e.verboseChars ++ rest ≠ ')' :: rest' := by
  rw [verboseChars_eq he, List.append_assoc]
  cases hword : e.firstWord with
  | nil => exact absurd hword (firstWord_ne_nil he)
  | cons c w =>
      have hc : c ∉ [' ', ',', '(', ')'] := isWord_firstWord he c (by simp [hword])
      intro h
      rw [(List.cons.inj h).1] at hc
      exact hc (by decide)

theorem isVerboseLegible_of_isLeaf {e : Expr} (he : e.IsVerboseReadable)
    (hleaf : e.isLeaf = true) : e.IsVerboseLegible := by
  intro y rest rest' hy hrest hrest' htext
  obtain ⟨hword, hafter⟩ := verboseChars_append_inj he hy hrest hrest' htext
  rw [afterFirstWord_of_isLeaf hleaf, List.nil_append] at hafter
  have hleaf' : y.isLeaf = true := isLeaf_of_beginsIn (hafter ▸ hrest)
  rw [firstWord_of_isLeaf hleaf, firstWord_of_isLeaf hleaf'] at hword
  rw [afterFirstWord_of_isLeaf hleaf', List.nil_append] at hafter
  exact ⟨forgetIds_eq_of_text_eq hleaf hleaf' (String.toList_inj.mp hword), hafter⟩

theorem isVerboseLegible_relation {k : Relation.Kind} {a b : Expr} {delay : Int64}
    (he : (relation k a b delay).IsVerboseReadable) (hb : b.IsVerboseLegible) :
    (relation k a b delay).IsVerboseLegible := by
  intro y rest rest' hy hrest hrest' htext
  obtain ⟨hword, hafter⟩ := verboseChars_append_inj he hy hrest hrest' htext
  -- Only a relation has a space after its first word, so the other expression is one too.
  obtain ⟨tail, hspace⟩ := afterFirstWord_relation k a b delay
  obtain ⟨k', a', b', delay', rfl⟩ : ∃ k a b delay, y = relation k a b delay := by
    rw [hspace] at hafter
    exact exists_relation_of_afterFirstWord hrest' hafter.symm
  have hfirst := forgetIds_eq_of_text_eq he.leafOperands.relation.1 hy.leafOperands.relation.1
    (String.toList_inj.mp hword)
  simp only [afterFirstWord, List.append_assoc] at hafter
  obtain ⟨rfl, rfl, hsecond⟩ := Relation.Kind.link_append_inj hafter
  obtain ⟨himage, hr⟩ := hb (hy.of_mem_args (by simp [args])) hrest hrest' hsecond
  exact ⟨by rw [forgetIds_relation, forgetIds_relation, hfirst, himage], hr⟩

def itemChars (c : Expr) : List Char := [',', ' '] ++ c.verboseChars

theorem closingChars_cons (c : Expr) (cs : List Expr) :
    closingChars (c :: cs) = c.verboseChars ++ (cs.flatMap itemChars ++ [')']) := by
  rw [closingChars, List.map_cons, intercalate_cons_eq_flatMap, List.flatMap_map,
    List.append_assoc]
  rfl

theorem legible_itemChars {c : Expr} (h : c.IsVerboseLegible) :
    Legible itemChars forgetIds IsVerboseReadable (BeginsIn [',', ')']) c := by
  intro y rest rest' hy hrest hrest' htext
  simp only [itemChars, List.append_assoc, List.append_cancel_left_eq] at htext
  exact h hy hrest hrest' htext

theorem legible_items {cs : List Expr} (h : ∀ c ∈ cs, c.IsVerboseLegible) :
    Legible (fun cs => cs.flatMap itemChars) (fun cs => cs.map forgetIds)
      (fun ys => ∀ y ∈ ys, y.IsVerboseReadable) (BeginsIn [')']) cs := by
  have hlegible := fun c hc => legible_itemChars (h c hc)
  refine Legible.flatMap (fun rest hrest => hrest.mono (by decide)) ?_ ?_ hlegible
  · intro c rest
    exact beginsIn_cons_iff.mpr (by decide)
  · intro c rest hstop
    exact absurd (beginsIn_cons_iff.mp hstop) (by decide)

theorem beginsIn_items (cs : List Expr) (rest : List Char) :
    BeginsIn [',', ')'] (cs.flatMap itemChars ++ ')' :: rest) := by
  cases cs with
  | nil => exact beginsIn_cons_iff.mpr (by decide)
  | cons c cs => exact beginsIn_cons_iff.mpr (by decide)

theorem closingChars_append_inj {cs ys : List Expr} (hcs : ∀ c ∈ cs, c.IsVerboseReadable)
    (h : ∀ c ∈ cs, c.IsVerboseLegible) (hys : ∀ y ∈ ys, y.IsVerboseReadable)
    {rest rest' : List Char} (htext : closingChars cs ++ rest = closingChars ys ++ rest') :
    cs.map forgetIds = ys.map forgetIds ∧ rest = rest' := by
  cases cs with
  | nil =>
      cases ys with
      | nil => exact ⟨rfl, (List.cons.inj htext).2⟩
      | cons y ys =>
          rw [closingChars_cons, List.append_assoc] at htext
          have hy := hys y List.mem_cons_self
          exact absurd htext.symm (verboseChars_append_ne hy _ rest)
  | cons c cs =>
      cases ys with
      | nil =>
          rw [closingChars_cons, List.append_assoc] at htext
          have hc := hcs c List.mem_cons_self
          exact absurd htext (verboseChars_append_ne hc _ rest')
      | cons y ys =>
          simp only [closingChars_cons, List.append_assoc, List.cons_append,
            List.nil_append] at htext
          obtain ⟨himage, htail⟩ := h c List.mem_cons_self (hys y List.mem_cons_self)
            (beginsIn_items cs rest) (beginsIn_items ys rest') htext
          have hitems := legible_items fun x hx => h x (List.mem_cons_of_mem c hx)
          obtain ⟨himages, hr⟩ := hitems (fun x hx => hys x (List.mem_cons_of_mem y hx))
            (beginsIn_cons_self ')' [] rest) (beginsIn_cons_self ')' [] rest') htail
          dsimp only at himages
          exact ⟨by rw [List.map_cons, List.map_cons, himage, himages], (List.cons.inj hr).2⟩

theorem forgetIds_eq_of_callee? {e y : Expr} {f : Callee} (he : e.callee? = some f)
    (hy : y.callee? = some f) (h : e.args.map forgetIds = y.args.map forgetIds) :
    e.forgetIds = y.forgetIds := by
  cases e <;> cases he <;> cases y <;> cases hy <;> simpa [args] using h

theorem isVerboseLegible_of_callee? {e : Expr} {f : Callee} (he : e.IsVerboseReadable)
    (hf : e.callee? = some f) (h : ∀ c ∈ e.args, c.IsVerboseLegible) : e.IsVerboseLegible := by
  intro y rest rest' hy hrest hrest' htext
  obtain ⟨hword, hafter⟩ := verboseChars_append_inj he hy hrest hrest' htext
  rw [afterFirstWord_of_callee? hf] at hafter
  obtain ⟨g, hg⟩ := exists_callee_of_afterFirstWord hrest' hafter.symm
  rw [firstWord_of_callee? hf, firstWord_of_callee? hg] at hword
  obtain rfl := Callee.name_injective hword
  rw [afterFirstWord_of_callee? hg] at hafter
  obtain ⟨himages, hr⟩ := closingChars_append_inj (fun c hc => he.of_mem_args hc) h
    (fun c hc => hy.of_mem_args hc) (List.cons.inj hafter).2
  exact ⟨forgetIds_eq_of_callee? hf hg himages, hr⟩

theorem isVerboseLegible {e : Expr} (he : e.IsVerboseReadable) : e.IsVerboseLegible := by
  induction e using inductionOn with
  | step e ih =>
      have hargs : ∀ c ∈ e.args, c.IsVerboseLegible := fun c hc => ih c hc (he.of_mem_args hc)
      cases e with
      | constant n => exact isVerboseLegible_of_isLeaf he rfl
      | timePoint p => exact isVerboseLegible_of_isLeaf he rfl
      | relation k a b delay => exact isVerboseLegible_relation he (hargs b (by simp [args]))
      | not a => exact isVerboseLegible_of_callee? he rfl hargs
      | and cs => exact isVerboseLegible_of_callee? he rfl hargs
      | or cs => exact isVerboseLegible_of_callee? he rfl hargs

/-- Two expressions with the same verbose text are the same but for the ids of intervals. -/
theorem verbose_unambiguous {e₁ e₂ : Expr} (h₁ : e₁.IsVerboseReadable)
    (h₂ : e₂.IsVerboseReadable) (h : e₁.render { verbose := true } = e₂.render { verbose := true }) :
    e₁.forgetIds = e₂.forgetIds := by
  have hend : BeginsIn [',', ')'] [] := by simp [BeginsIn]
  exact (isVerboseLegible h₁ h₂ hend hend (congrArg (fun s => s.toList ++ []) h)).1

/-- Combinators without operands and with one, next to leaves that are labelled like them. -/
theorem verbose_unambiguous_narrow :
    let e (id : String) : Expr :=
      or [and [], and [or [timePoint ⟨id, "and", .start⟩]], not (and []),
        relation .synchronization (timePoint ⟨id, "or~", .finish⟩) (constant (-1)) (-7)]
    (e "a").IsVerboseReadable ∧ (e "b").IsVerboseReadable ∧
      (e "a").render { verbose := true } = (e "b").render { verbose := true } ∧
      e "a" ≠ e "b" ∧ (e "a").forgetIds = (e "b").forgetIds :=
  ⟨by decide, by decide, by decide, by decide,
    verbose_unambiguous (by decide) (by decide) (by decide)⟩

end Expr

end SchedulingLogic

import Mathlib.Data.List.Basic

/-!
# Reading written things back

Things are written as lists of symbols.  One is legible if what is written for it at the
front of a text tells it from everything else and tells where the rest of the text
begins, provided that the rest cannot be taken for more of it.
-/

namespace SchedulingLogic

variable {α β γ : Type}

section Words

variable {marks : List γ}

def IsWord (marks w : List γ) : Prop := ∀ c ∈ w, c ∉ marks

instance [DecidableEq γ] (w : List γ) : Decidable (IsWord marks w) :=
  inferInstanceAs (Decidable (∀ c ∈ w, c ∉ marks))

/-- The text is empty or begins with a mark. -/
def BeginsIn (marks rest : List γ) : Prop := ∀ c ∈ rest.head?, c ∈ marks

theorem beginsIn_cons_iff {c : γ} {rest : List γ} : BeginsIn marks (c :: rest) ↔ c ∈ marks := by
  simp [BeginsIn]

theorem beginsIn_cons_self (c : γ) (marks rest : List γ) : BeginsIn (c :: marks) (c :: rest) :=
  beginsIn_cons_iff.mpr List.mem_cons_self

theorem BeginsIn.mono {marks' rest : List γ} (h : BeginsIn marks rest) (hsub : marks ⊆ marks') :
    BeginsIn marks' rest := fun c hc => hsub (h c hc)

/-- The first mark ends a word. -/
theorem IsWord.append_inj {w w' rest rest' : List γ} (hw : IsWord marks w)
    (hw' : IsWord marks w') (hrest : BeginsIn marks rest) (hrest' : BeginsIn marks rest')
    (h : w ++ rest = w' ++ rest') : w = w' ∧ rest = rest' := by
  induction w generalizing w' with
  | nil =>
      cases w' with
      | nil => exact ⟨rfl, h⟩
      | cons d w' =>
          rw [List.nil_append] at h
          rw [h, List.cons_append, beginsIn_cons_iff] at hrest
          exact absurd hrest (hw' d List.mem_cons_self)
  | cons c w ih =>
      cases w' with
      | nil =>
          rw [List.nil_append] at h
          rw [← h, List.cons_append, beginsIn_cons_iff] at hrest'
          exact absurd hrest' (hw c List.mem_cons_self)
      | cons d w' =>
          obtain ⟨rfl, hafter⟩ := List.cons.inj h
          have htail : IsWord marks w := fun x hx => hw x (List.mem_cons_of_mem c hx)
          have htail' : IsWord marks w' := fun x hx => hw' x (List.mem_cons_of_mem c hx)
          obtain ⟨rfl, hr⟩ := ih htail htail' hafter
          exact ⟨rfl, hr⟩

/-- A text that begins with a word does not begin with a mark, unless the word is empty
and the mark may follow it. -/
theorem IsWord.append_ne_cons {ends w rest : List γ} (hw : IsWord marks w)
    (hrest : BeginsIn ends rest) {c : γ} (hc : c ∈ marks) (hends : c ∉ ends)
    (rest' : List γ) : w ++ rest ≠ c :: rest' := by
  intro h
  cases w with
  | nil =>
      rw [List.nil_append] at h
      rw [h, beginsIn_cons_iff] at hrest
      exact hends hrest
  | cons d w =>
      obtain ⟨rfl, _⟩ := List.cons.inj h
      exact hw d List.mem_cons_self hc

end Words

theorem intercalate_cons_eq_flatMap (sep : List γ) (w : List γ) (ws : List (List γ)) :
    List.intercalate sep (w :: ws) = w ++ ws.flatMap fun w => sep ++ w := by
  induction ws generalizing w with
  | nil => simp
  | cons v ws ih => rw [List.intercalate_cons_cons, ih, List.flatMap_cons]; simp

/-- The image of `x` and the rest are known from a text that begins with what is written
for `x`, among all texts that begin with something valid. -/
def Legible (write : α → List γ) (image : α → β) (valid : α → Prop) (ends : List γ → Prop)
    (x : α) : Prop :=
  ∀ ⦃y rest rest'⦄, valid y → ends rest → ends rest' →
    write x ++ rest = write y ++ rest' → image x = image y ∧ rest = rest'

/-- A sequence of legible things is legible if each also ends the one before it, and if
none can begin where the sequence stops. -/
theorem Legible.flatMap {write : α → List γ} {image : α → β} {valid : α → Prop}
    {ends stops : List γ → Prop} (hstops : ∀ rest, stops rest → ends rest)
    (hnext : ∀ x rest, ends (write x ++ rest)) (hgoes : ∀ x rest, ¬stops (write x ++ rest))
    {xs : List α} (h : ∀ x ∈ xs, Legible write image valid ends x) :
    Legible (fun xs => xs.flatMap write) (fun xs => xs.map image)
      (fun ys => ∀ y ∈ ys, valid y) stops xs := by
  have hends : ∀ (ys : List α) rest, stops rest → ends (ys.flatMap write ++ rest) := by
    intro ys rest hrest
    cases ys with
    | nil => exact hstops rest hrest
    | cons y ys =>
        rw [List.flatMap_cons, List.append_assoc]
        exact hnext y _
  -- Both sequences shrink together: where one stops, the other has no item left to begin.
  induction xs with
  | nil =>
      intro ys rest rest' _ hrest _ htext
      cases ys with
      | nil => exact ⟨rfl, htext⟩
      | cons y ys =>
          simp only [List.flatMap_nil, List.nil_append, List.flatMap_cons, List.append_assoc]
            at htext
          exact absurd (htext ▸ hrest) (hgoes y _)
  | cons x xs ih =>
      intro ys rest rest' hys hrest hrest' htext
      cases ys with
      | nil =>
          simp only [List.flatMap_nil, List.nil_append, List.flatMap_cons, List.append_assoc]
            at htext
          exact absurd (htext ▸ hrest') (hgoes x _)
      | cons y ys =>
          simp only [List.flatMap_cons, List.append_assoc] at htext
          obtain ⟨himage, htail⟩ := h x List.mem_cons_self (hys y List.mem_cons_self)
            (hends xs rest hrest) (hends ys rest' hrest') htext
          have hxs := ih fun z hz => h z (List.mem_cons_of_mem x hz)
          obtain ⟨himages, hr⟩ := hxs (fun z hz => hys z (List.mem_cons_of_mem y hz))
            hrest hrest' htail
          exact ⟨by simp only [List.map_cons, himage, himages], hr⟩

/-- A sequence of known length is legible if each of its items is legible whatever follows. -/
theorem Legible.flatMap_of_length_eq {write : α → List γ} {image : α → β} {valid : α → Prop}
    {xs : List α} (h : ∀ x ∈ xs, Legible write image valid (fun _ => True) x) :
    Legible (fun xs => xs.flatMap write) (fun xs => xs.map image)
      (fun ys => ys.length = xs.length ∧ ∀ y ∈ ys, valid y) (fun _ => True) xs := by
  induction xs with
  | nil =>
      rintro ys rest rest' ⟨hlength, _⟩ _ _ htext
      obtain rfl := List.eq_nil_of_length_eq_zero hlength
      exact ⟨rfl, htext⟩
  | cons x xs ih =>
      rintro ys rest rest' ⟨hlength, hys⟩ _ _ htext
      cases ys with
      | nil => simp at hlength
      | cons y ys =>
          simp only [List.flatMap_cons, List.append_assoc] at htext
          obtain ⟨himage, htail⟩ :=
            h x List.mem_cons_self (hys y List.mem_cons_self) trivial trivial htext
          have hvalid : ys.length = xs.length ∧ ∀ z ∈ ys, valid z :=
            ⟨Nat.succ.inj hlength, fun z hz => hys z (List.mem_cons_of_mem y hz)⟩
          have hxs := ih fun z hz => h z (List.mem_cons_of_mem x hz)
          obtain ⟨himages, hr⟩ := hxs hvalid trivial trivial htail
          exact ⟨by simp only [List.map_cons, himage, himages], hr⟩

end SchedulingLogic

import SchedulingLogic.Proofs.Interchange.Spelling

/-!
# Canonical texts

A value has many spellings, and one text is written for it.  Nothing that a decoder accepts
nests less than the form of the decoded value, and the decoder opens at least as much as
this form needs.  Hence the written text is accepted after any spelling of the value, and
reading and writing it once more changes nothing.
-/

namespace SchedulingLogic

/-- A decoder that takes a value neither from a form that nests less than the value's own
nor with less to open than that form needs. -/
class ShallowCodec (α : Type) [Codec α] : Prop where
  nesting_encode_le {depth : Nat} {j : Json} {a : α} (h : Codec.decode? depth j = some a) :
    (Codec.encode a).nesting ≤ min depth j.nesting

namespace Json

theorem nesting_pos_of_fields?_eq_some {names : List String} {j : Json} {values : List Json}
    (h : j.fields? names = some values) : 0 < j.nesting := by
  cases j with
  | array items => simp
  | object members =>
      rw [nesting]
      omega
  | _ => simp [fields?] at h

theorem nesting_record_le {names : List String} {j : Json} {values : List Json}
    (h : j.fields? names = some values) {fields : List (String × Json)}
    (hflat : nestingItems (fields.map Prod.snd) = 0) (depth : Nat) :
    (record fields).nesting ≤ min (depth + 1) j.nesting := by
  have hpos := nesting_pos_of_fields?_eq_some h
  rw [nesting_record, hflat]
  omega

theorem nesting_tagged_le {name name' : String} {form content : Json} {depth : Nat}
    (h : form.nesting ≤ min depth content.nesting) :
    (tagged name form).nesting ≤ min (depth + 1) (tagged name' content).nesting := by
  rw [nesting_tagged, nesting_tagged]
  omega

end Json

/-! ## Points, intervals and values -/

instance : ShallowCodec Endpoint where
  nesting_encode_le _ := Nat.zero_le _

instance : ShallowCodec Relation.Kind where
  nesting_encode_le _ := Nat.zero_le _

instance : ShallowCodec TimePoint where
  nesting_encode_le {depth j p} h := by
    cases depth with
    | zero => cases h
    | succ depth =>
        change Option.bind (j.fields? ["interval", "label", "kind"]) _ = some p at h
        obtain ⟨values, hvalues, _⟩ := Option.bind_eq_some_iff.mp h
        exact Json.nesting_record_le hvalues rfl depth

instance : ShallowCodec Interval where
  nesting_encode_le {depth j x} h := by
    cases depth with
    | zero => cases h
    | succ depth =>
        change Option.bind (j.fields? ["id", "name"]) _ = some x at h
        obtain ⟨values, hvalues, _⟩ := Option.bind_eq_some_iff.mp h
        exact Json.nesting_record_le hvalues rfl depth

instance : ShallowCodec Value where
  nesting_encode_le {depth j v} h := by
    cases depth with
    | zero => cases h
    | succ depth =>
        change Option.bind j.tagged? _ = some v at h
        obtain ⟨⟨name, content⟩, hj, _⟩ := Option.bind_eq_some_iff.mp h
        rw [Json.tagged?_eq_some_iff.mp hj]
        cases v with
        | int n => exact Json.nesting_tagged_le (Nat.zero_le _)
        | bool b => exact Json.nesting_tagged_le (Nat.zero_le _)

/-! ## Relations and expressions -/

/-- The decoder of expressions is shallow when it may open this many arrays and objects. -/
def Expr.ShallowAt (depth : Nat) : Prop :=
  ∀ j e, decode? depth j = some e → e.encode.nesting ≤ min depth j.nesting

namespace Relation

theorem nesting_encode_le_of_ofForm? {depth : Nat} (h : Expr.ShallowAt depth) {j : Json}
    {r : Relation} (hr : ofForm? (Expr.decode? depth) j = some r) :
    (Codec.encode r).nesting ≤ min (depth + 3) j.nesting := by
  have hspells : Spells (fun content a => Expr.decode? depth content = some a) j r :=
    (ofForm?_eq_some_iff fun _ _ _ => Iff.rfl).mp hr
  cases hspells with
  | @tagged body first second _ hbody hfirst hsecond =>
      have ha := h first r.first hfirst
      have hb := h second r.second hsecond
      have hbelow : ∀ content ∈ [first, second],
          content.nesting + 3 ≤ (Json.tagged r.kind.tag body).nesting := by
        intro content hcontent
        exact nesting_operand_le hbody hcontent r.kind.tag
      have hfirstBelow := hbelow first (by simp)
      have hsecondBelow := hbelow second (by simp)
      change (form r.kind r.first.encode r.second.encode r.delay).nesting ≤ _
      rw [nesting_form]
      omega

theorem nesting_encode_le_of_shallowAt {depth : Nat} (h : ∀ n < depth, Expr.ShallowAt n)
    {j : Json} {r : Relation} (hr : Codec.decode? depth j = some r) :
    (Codec.encode r).nesting ≤ min depth j.nesting := by
  rcases depth with _ | _ | _ | depth
  · cases hr
  · cases hr
  · cases hr
  · exact nesting_encode_le_of_ofForm? (h depth (by omega)) hr

end Relation

namespace Expr

theorem nestingItems_encode_le {depth : Nat} (h : ShallowAt depth) {contents : List Json}
    {cs : List Expr}
    (hcs : List.Forall₂ (fun content c => decode? depth content = some c) contents cs) :
    Json.nestingItems (cs.map encode) ≤ min depth (Json.nestingItems contents) := by
  induction hcs with
  | nil => exact Nat.zero_le _
  | @cons content c _ _ hc _ ih =>
      have hc := h content c hc
      rw [List.map_cons, Json.nestingItems, Json.nestingItems]
      omega

theorem nesting_operands_le {depth : Nat} (h : ∀ n < depth, ShallowAt n) {content : Json}
    {cs : List Expr} (hcs : operands? depth content = some cs) :
    (Json.array (cs.map encode)).nesting ≤ min depth content.nesting := by
  cases depth with
  | zero => cases hcs
  | succ depth =>
      obtain ⟨contents, hcontents, hcs⟩ := Option.bind_eq_some_iff.mp hcs
      have hitems := nestingItems_encode_le (h depth (Nat.lt_succ_self depth))
        (mapM_eq_some_iff.mp hcs)
      rw [Json.items?_eq_some_iff.mp hcontents, Json.nesting_array, Json.nesting_array]
      omega

theorem shallowAt_succ {depth : Nat} (h : ∀ n < depth + 1, ShallowAt n) :
    ShallowAt (depth + 1) := by
  have hbelow : ∀ n < depth, ShallowAt n := fun n hn => h n (Nat.lt_succ_of_lt hn)
  intro j e he
  cases hj : j.tagged? with
  | none => simp [decode?, hj] at he
  | some tagged =>
      obtain ⟨name, content⟩ := tagged
      obtain rfl := Json.tagged?_eq_some_iff.mp hj
      rw [decode?_tagged] at he
      split_ifs at he
      · obtain ⟨n, _, rfl⟩ := Option.map_eq_some_iff.mp he
        exact Json.nesting_tagged_le (Nat.zero_le _)
      · obtain ⟨p, hp, rfl⟩ := Option.map_eq_some_iff.mp he
        exact Json.nesting_tagged_le (ShallowCodec.nesting_encode_le hp)
      · obtain ⟨r, hr, rfl⟩ := Option.map_eq_some_iff.mp he
        exact Json.nesting_tagged_le (Relation.nesting_encode_le_of_shallowAt hbelow hr)
      · obtain ⟨a, ha, rfl⟩ := Option.map_eq_some_iff.mp he
        exact Json.nesting_tagged_le (h depth (Nat.lt_succ_self depth) content a ha)
      · obtain ⟨cs, hcs, rfl⟩ := Option.map_eq_some_iff.mp he
        rw [encode, encodeEach_eq_map]
        exact Json.nesting_tagged_le (nesting_operands_le hbelow hcs)
      · obtain ⟨cs, hcs, rfl⟩ := Option.map_eq_some_iff.mp he
        rw [encode, encodeEach_eq_map]
        exact Json.nesting_tagged_le (nesting_operands_le hbelow hcs)

theorem shallowAt (depth : Nat) : ShallowAt depth := by
  -- The operands of a relation are decoded three levels further down than the relation.
  induction depth using Nat.strongRecOn with
  | ind depth ih =>
      cases depth with
      | zero =>
          intro j e he
          simp [decode?] at he
      | succ depth => exact shallowAt_succ ih

end Expr

instance : ShallowCodec Expr where
  nesting_encode_le {depth j e} h := Expr.shallowAt depth j e h

instance : ShallowCodec Relation where
  nesting_encode_le h :=
    Relation.nesting_encode_le_of_shallowAt (fun n _ => Expr.shallowAt n) h

/-! ## Texts -/

namespace Codec

/-- From whatever text a value is read, the text that is written for it is read as the same
value and written again from there, and no more is nested in it than in the first text. -/
def IsCanonical (α : Type) [Codec α] : Prop :=
  ∀ (s : String) (a : α), read? s = some a →
    read? (text a) = some a ∧ (read? (text a) : Option α).map text = some (text a) ∧
      ∃ j j', Json.read? s = some j ∧ Json.read? (text a) = some j' ∧ j'.nesting ≤ j.nesting

theorem isCanonical (α : Type) [Codec α] [LawfulCodec α] [ShallowCodec α] : IsCanonical α := by
  intro s a ha
  obtain ⟨j, hj, hdecode⟩ := Option.bind_eq_some_iff.mp ha
  have hnesting := ShallowCodec.nesting_encode_le hdecode
  have hread : read? (text a) = some a := by
    rw [LawfulCodec.read?_text, if_pos (Nat.le_trans hnesting (Nat.min_le_left _ _))]
  refine ⟨hread, ?_, j, encode a, hj, (LawfulCodec.isPlain_encode a).read?_text, ?_⟩
  · rw [hread, Option.map_some]
  · exact Nat.le_trans hnesting (Nat.min_le_right _ _)

/-- All values are written canonically. -/
theorem text_canonical :
    IsCanonical Expr ∧ IsCanonical Relation ∧ IsCanonical Relation.Kind ∧
      IsCanonical TimePoint ∧ IsCanonical Endpoint ∧ IsCanonical Interval ∧
      IsCanonical Value :=
  ⟨isCanonical Expr, isCanonical Relation, isCanonical Relation.Kind, isCanonical TimePoint,
    isCanonical Endpoint, isCanonical Interval, isCanonical Value⟩

/-- Blanks, an escape, fields as a list and an end as an object, of which the written text
keeps none. -/
theorem text_canonical_respelled :
    let s : String := " [ \"\\u0061\", \"x\",\n\x7b\"end\" : null\x7d ] "
    let p : TimePoint := ⟨"a", "x", .finish⟩
    read? s = some p ∧ text p ≠ s ∧ read? (text p) = some p ∧
      (read? (text p) : Option TimePoint).map text = some (text p) ∧
      ∃ j j', Json.read? s = some j ∧ Json.read? (text p) = some j' ∧ j'.nesting ≤ j.nesting :=
  ⟨by decide +kernel, by decide +kernel, text_canonical.2.2.2.1 _ _ (by decide +kernel)⟩

end Codec

end SchedulingLogic

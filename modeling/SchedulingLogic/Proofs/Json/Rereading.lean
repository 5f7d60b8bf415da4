import SchedulingLogic.Interchange.Codec
import SchedulingLogic.Proofs.Json.Scanning

/-!
# Reading written values

Values without real numbers, all of whose strings have a text, are read back from
what is written for them.
-/

namespace SchedulingLogic

namespace Json

/-- Values without real numbers and without strings that have no text. -/
inductive IsPlain : Json → Prop
  | null : IsPlain null
  | bool (b : Bool) : IsPlain (bool b)
  | integer (n : Int) : IsPlain (integer n)
  | text (s : String) : IsPlain (ofText s)
  | array {items : List Json} (h : ∀ j ∈ items, IsPlain j) : IsPlain (array items)
  | record {fields : List (String × Json)} (h : ∀ field ∈ fields, IsPlain field.2) :
      IsPlain (record fields)

/-- The reader takes exactly the written characters for `x`, whatever follows a number. -/
structure Reads {α : Type} (item : Reader α) (x : α) (written : List Char) : Prop where
  head : ∃ c cs, written = c :: cs ∧ isBlank c = false ∧ c ≠ ']' ∧ c ≠ '}'
  read : ∀ rest, EndsNumber rest → item (written ++ rest) = some (x, rest)

theorem skipBlanks_cons {c : Char} (h : isBlank c = false) (cs : List Char) :
    skipBlanks (c :: cs) = c :: cs :=
  List.dropWhile_cons_of_neg (by simp [h])

theorem endsNumber_of_isBracket {c : Char} (h : c = ',' ∨ c = ']' ∨ c = '}')
    (rest : List Char) : EndsNumber (c :: rest) := by
  intro d hd
  obtain rfl : c = d := by simpa using hd
  rcases h with rfl | rfl | rfl <;> decide

section Sequences

variable {α : Type} {item : Reader α} {write : α → List Char} {close : Char}

theorem intercalate_map_cons_cons (x y : α) (ys : List α) :
    List.intercalate [','] ((x :: y :: ys).map write) =
      write x ++ ',' :: List.intercalate [','] ((y :: ys).map write) := by
  simp

theorem itemsUpTo_intercalate (hclose : close = ']' ∨ close = '}') {xs : List α}
    (hne : xs ≠ []) (h : ∀ x ∈ xs, Reads item x (write x)) {fuel : Nat}
    (hfuel : xs.length ≤ fuel) (rest : List Char) :
    itemsUpTo close item fuel (List.intercalate [','] (xs.map write) ++ close :: rest) =
      some (xs, rest) := by
  induction xs generalizing fuel with
  | nil => exact absurd rfl hne
  | cons x xs ih =>
      obtain ⟨fuel, rfl⟩ : ∃ n, fuel = n + 1 := ⟨fuel - 1, by simp at hfuel; omega⟩
      have hx := (h x List.mem_cons_self).read
      cases xs with
      | nil =>
          have hend := hx (close :: rest) (endsNumber_of_isBracket (Or.inr hclose) rest)
          have hblank : isBlank close = false := by rcases hclose with rfl | rfl <;> decide
          simp [itemsUpTo, hend, skipBlanks_cons hblank]
      | cons y ys =>
          have hrest := ih (by simp) (fun z hz => h z (List.mem_cons_of_mem x hz))
            (Nat.le_of_succ_le_succ hfuel)
          have hcomma : ',' ≠ close := by rcases hclose with rfl | rfl <;> decide
          rw [intercalate_map_cons_cons, List.append_assoc, List.cons_append, itemsUpTo,
            hx _ (endsNumber_of_isBracket (Or.inl rfl) _)]
          simp only [Option.bind_eq_bind, Option.bind_some,
            skipBlanks_cons (show isBlank ',' = false from rfl), if_neg hcomma, if_true, hrest]
          rfl

theorem length_le_length_intercalate {xs : List α} (h : ∀ x ∈ xs, write x ≠ []) :
    xs.length ≤ (List.intercalate [','] (xs.map write)).length := by
  induction xs with
  | nil => simp
  | cons x xs ih =>
      cases xs with
      | nil =>
          have hx := List.length_pos_iff.mpr (h x List.mem_cons_self)
          simpa [Nat.succ_le_iff] using hx
      | cons y ys =>
          have hrest := ih fun z hz => h z (List.mem_cons_of_mem x hz)
          rw [intercalate_map_cons_cons]
          simp only [List.length_append, List.length_cons] at hrest ⊢
          omega

theorem sequence_intercalate (hclose : close = ']' ∨ close = '}') {xs : List α}
    (h : ∀ x ∈ xs, Reads item x (write x)) (rest : List Char) :
    sequence close item (List.intercalate [','] (xs.map write) ++ close :: rest) =
      some (xs, rest) := by
  have hblank : isBlank close = false := by rcases hclose with rfl | rfl <;> decide
  cases xs with
  | nil => simp [sequence, skipBlanks_cons hblank]
  | cons x xs =>
      have hnonempty : ∀ y ∈ x :: xs, write y ≠ [] := by
        intro y hy
        obtain ⟨c, cs, hwrite, _⟩ := (h y hy).head
        simp [hwrite]
      have hlength := length_le_length_intercalate hnonempty
      obtain ⟨c, cs, htext, hc, hne⟩ : ∃ c cs,
          List.intercalate [','] ((x :: xs).map write) ++ close :: rest = c :: cs ∧
            isBlank c = false ∧ c ≠ close := by
        obtain ⟨c, cs, hwrite, hc, hsquare, hcurly⟩ := (h x List.mem_cons_self).head
        have hne : c ≠ close := by rcases hclose with rfl | rfl <;> assumption
        cases xs with
        | nil => exact ⟨c, cs ++ close :: rest, by simp [hwrite], hc, hne⟩
        | cons y ys => exact ⟨c, _, by rw [intercalate_map_cons_cons, hwrite]; rfl, hc, hne⟩
      have hfuel : (x :: xs).length ≤ cs.length + 1 := by
        have hcs := congrArg List.length htext
        simp only [List.length_append, List.length_cons] at hcs hlength ⊢
        omega
      have hitems := itemsUpTo_intercalate hclose (List.cons_ne_nil x xs) h hfuel rest
      rw [sequence, htext, skipBlanks_cons hc]
      simp only [if_neg hne]
      rw [← htext]
      exact hitems

end Sequences

/-! ## Values -/

theorem value_cons {c : Char} (h : isBlank c = false) (fuel : Nat) (rest : List Char) :
    value (fuel + 1) (c :: rest) =
      if c = '"' then (stringBody rest).map fun (s, rest) => (string s, rest)
      else if c = '[' then
        (sequence ']' (value fuel) rest).map fun (js, rest) => (array js, rest)
      else if c = '{' then
        (sequence '}' (member (value fuel)) rest).map fun (ms, rest) => (object ms, rest)
      else if c = 'n' then keyword ['u', 'l', 'l'] null rest
      else if c = 't' then keyword ['r', 'u', 'e'] (bool true) rest
      else if c = 'f' then keyword ['a', 'l', 's', 'e'] (bool false) rest
      else number (c :: rest) := by
  rw [value, skipBlanks_cons h]

theorem reads_null {fuel : Nat} : Reads (value (fuel + 1)) null null.toChars where
  head := ⟨'n', _, rfl, rfl, by decide, by decide⟩
  read _ _ := rfl

theorem reads_bool {fuel : Nat} (b : Bool) :
    Reads (value (fuel + 1)) (bool b) (bool b).toChars := by
  cases b with
  | true => exact ⟨⟨'t', _, rfl, rfl, by decide, by decide⟩, fun _ _ => rfl⟩
  | false => exact ⟨⟨'f', _, rfl, rfl, by decide, by decide⟩, fun _ _ => rfl⟩

theorem reads_integer {fuel : Nat} (n : Int) :
    Reads (value (fuel + 1)) (integer n) (integer n).toChars := by
  obtain ⟨c, cs, htext, hc⟩ := toList_repr_eq_cons n
  have hblank : isBlank c = false := by
    simp only [isBlank, Bool.or_eq_false_iff, decide_eq_false_iff_not]
    refine ⟨⟨⟨?_, ?_⟩, ?_⟩, ?_⟩ <;> (rintro rfl; simp at hc)
  refine ⟨⟨c, cs, htext, hblank, ?_, ?_⟩, fun rest hrest => ?_⟩
  · rintro rfl
    simp at hc
  · rintro rfl
    simp at hc
  · have hnumber := number_repr n hrest
    rw [toChars, htext, List.cons_append, value_cons hblank]
    rw [htext, List.cons_append] at hnumber
    have hne : c ≠ '"' ∧ c ≠ '[' ∧ c ≠ '{' ∧ c ≠ 'n' ∧ c ≠ 't' ∧ c ≠ 'f' := by
      refine ⟨?_, ?_, ?_, ?_, ?_, ?_⟩ <;> (rintro rfl; simp at hc)
    simp only [hne, if_false, hnumber]

theorem reads_text {fuel : Nat} (s : String) :
    Reads (value (fuel + 1)) (ofText s) (ofText s).toChars where
  head := ⟨'"', _, rfl, rfl, by decide, by decide⟩
  read rest _ := by
    show value (fuel + 1) ('"' :: s.toList.flatMap escape ++ ['"'] ++ rest) = _
    rw [List.append_assoc, List.cons_append, List.singleton_append, value_cons rfl, if_pos rfl,
      stringBody_flatMap_escape]
    rfl

theorem reads_member {fuel : Nat} (name : String) {j : Json}
    (h : Reads (value fuel) j j.toChars) :
    Reads (member (value fuel)) (some name, j) (writeMember (some name, j)) where
  head := ⟨'"', _, rfl, rfl, by decide, by decide⟩
  read rest hrest := by
    show member (value fuel)
      ('"' :: name.toList.flatMap escape ++ ['"'] ++ ':' :: j.toChars ++ rest) = _
    rw [List.append_assoc, List.append_assoc, List.cons_append, List.cons_append, member,
      skipBlanks_cons rfl]
    simp [stringBody_flatMap_escape, skipBlanks_cons (show isBlank ':' = false from rfl),
      h.read rest hrest]

theorem reads_array {fuel : Nat} {items : List Json}
    (h : ∀ j ∈ items, Reads (value fuel) j j.toChars) :
    Reads (value (fuel + 1)) (array items) (array items).toChars where
  head := ⟨'[', _, rfl, rfl, by decide, by decide⟩
  read rest _ := by
    rw [toChars, itemChars_eq_map, List.cons_append, List.cons_append, List.append_assoc,
      List.singleton_append, value_cons rfl, if_neg (by decide), if_pos rfl,
      sequence_intercalate (Or.inl rfl) h rest]
    rfl

theorem reads_record {fuel : Nat} {fields : List (String × Json)}
    (h : ∀ field ∈ fields, Reads (value fuel) field.2 field.2.toChars) :
    Reads (value (fuel + 1)) (record fields) (record fields).toChars where
  head := ⟨'{', _, rfl, rfl, by decide, by decide⟩
  read rest _ := by
    have hmembers : ∀ m ∈ fields.map fun field => (some field.1, field.2),
        Reads (member (value fuel)) m (writeMember m) := by
      intro m hm
      obtain ⟨field, hfield, rfl⟩ := List.mem_map.mp hm
      exact reads_member field.1 (h field hfield)
    rw [record, toChars, memberChars_eq_map, List.cons_append, List.cons_append, List.append_assoc,
      List.singleton_append, value_cons rfl, if_neg (by decide), if_neg (by decide), if_pos rfl,
      sequence_intercalate (Or.inr rfl) hmembers rest]
    rfl

/-- What is written for a plain value is read as that value. -/
theorem IsPlain.reads {j : Json} (h : j.IsPlain) {fuel : Nat} (hfuel : j.nesting ≤ fuel) :
    Reads (value (fuel + 1)) j j.toChars := by
  induction h generalizing fuel with
  | null => exact reads_null
  | bool b => exact reads_bool b
  | integer n => exact reads_integer n
  | text s => exact reads_text s
  | @array items _ ih =>
      rw [nesting, Nat.add_comm] at hfuel
      obtain ⟨fuel, rfl⟩ := Nat.exists_eq_add_of_le' (Nat.le_of_add_left_le hfuel)
      have hitems := nestingItems_le_iff.mp (Nat.le_of_add_le_add_right hfuel)
      apply reads_array
      intro j hj
      exact ih j hj (hitems j hj)
  | @record fields _ ih =>
      rw [Json.record, nesting, Nat.add_comm] at hfuel
      obtain ⟨fuel, rfl⟩ := Nat.exists_eq_add_of_le' (Nat.le_of_add_left_le hfuel)
      have hmembers := nestingMembers_le_iff.mp (Nat.le_of_add_le_add_right hfuel)
      apply reads_record
      intro field hfield
      exact ih field hfield (hmembers _ (List.mem_map_of_mem hfield))

theorem length_le_of_mem_intercalate {cs : List Char} {css : List (List Char)}
    (h : cs ∈ css) : cs.length ≤ (List.intercalate [','] css).length := by
  induction css with
  | nil => simp at h
  | cons ds css ih =>
      cases css with
      | nil => simp_all
      | cons es css =>
          rw [List.intercalate_cons_cons]
          simp only [List.length_append]
          rcases List.mem_cons.mp h with rfl | h
          · omega
          · have hrest := ih h
            omega

theorem IsPlain.nesting_le_length {j : Json} (h : j.IsPlain) :
    j.nesting ≤ j.toChars.length := by
  induction h with
  | null => exact Nat.zero_le _
  | bool b => exact Nat.zero_le _
  | integer n => exact Nat.zero_le _
  | text s => exact Nat.zero_le _
  | @array items _ ih =>
      have hitems : nestingItems items ≤
          (List.intercalate [','] (items.map toChars)).length := by
        rw [nestingItems_le_iff]
        intro j hj
        have hwritten := length_le_of_mem_intercalate (List.mem_map_of_mem (f := toChars) hj)
        exact Nat.le_trans (ih j hj) hwritten
      rw [nesting, toChars, itemChars_eq_map]
      simp only [List.length_append, List.length_cons, List.length_nil]
      omega
  | @record fields _ ih =>
      have hmembers : nestingMembers (fields.map fun field => (some field.1, field.2)) ≤
          (List.intercalate [',']
            ((fields.map fun field => (some field.1, field.2)).map writeMember)).length := by
        rw [nestingMembers_le_iff]
        intro m hm
        apply Nat.le_trans ?_ (length_le_of_mem_intercalate (List.mem_map_of_mem hm))
        obtain ⟨field, hfield, rfl⟩ := List.mem_map.mp hm
        have hcontent := ih field hfield
        simp only [writeMember, List.length_append, List.length_cons]
        omega
      rw [Json.record, nesting, toChars, memberChars_eq_map]
      simp only [List.length_append, List.length_cons, List.length_nil]
      omega

theorem IsPlain.read?_text {j : Json} (h : j.IsPlain) : read? j.text = some j := by
  have hread := (h.reads h.nesting_le_length).read [] (by simp [EndsNumber])
  rw [List.append_nil] at hread
  rw [read?, Json.text, String.toList_ofList, ofChars?, hread]
  rfl

end Json

end SchedulingLogic

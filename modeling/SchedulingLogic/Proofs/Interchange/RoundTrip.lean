import Mathlib.Data.List.Forall2
import Mathlib.Tactic.SplitIfs
import SchedulingLogic.Interchange.Expr
import SchedulingLogic.Proofs.Json.Rereading

/-!
# Reading written expressions

The form of a value is decoded to that value exactly when no more arrays and objects
are nested in it than the decoder may open.  With the reader of JSON texts this makes
the text of an expression one that is read as that expression or not at all.
-/

namespace SchedulingLogic

theorem mapM_eq_some_iff {α β : Type} {f : α → Option β} {xs : List α} {ys : List β} :
    xs.mapM f = some ys ↔ List.Forall₂ (fun x y => f x = some y) xs ys := by
  induction xs generalizing ys with
  | nil => simp [eq_comm]
  | cons x xs ih =>
      simp only [List.mapM_cons, Option.bind_eq_bind, Option.bind_eq_some_iff, Option.pure_def,
        Option.some.injEq, List.forall₂_cons_left_iff, ih]
      constructor
      · rintro ⟨y, hy, ys, hys, rfl⟩
        exact ⟨y, ys, hy, hys, rfl⟩
      · rintro ⟨y, ys, hy, hys, rfl⟩
        exact ⟨y, hy, ys, hys, rfl⟩

theorem mapM_eq_some_map {α β : Type} {f : α → Option β} {g : α → β} {xs : List α}
    (h : ∀ x ∈ xs, f x = some (g x)) : xs.mapM f = some (xs.map g) :=
  mapM_eq_some_iff.mpr (List.forall₂_map_right_iff.mpr (List.forall₂_same.mpr h))

namespace Json

theorem field?_of_mem {fields : List (String × Json)} (h : (fields.map Prod.fst).Nodup)
    {field : String × Json} (hfield : field ∈ fields) :
    field? (fields.map fun field => (some field.1, field.2)) field.1 = some field.2 := by
  have hfilter : (fields.map fun field => (some field.1, field.2)).filter
      (fun m => m.1 == some field.1) = [(some field.1, field.2)] := by
    induction fields with
    | nil => simp at hfield
    | cons first fields ih =>
        obtain ⟨hfirst, hnodup⟩ := List.nodup_cons.mp h
        rcases List.mem_cons.mp hfield with rfl | hfield
        · have hrest : ∀ other ∈ fields, other.1 ≠ field.1 := by
            intro other hother heq
            exact hfirst (heq ▸ List.mem_map_of_mem hother)
          simpa [List.filter_map, List.filter_eq_nil_iff] using hrest
        · have hne : first.1 ≠ field.1 := by
            intro heq
            exact hfirst (heq ▸ List.mem_map_of_mem hfield)
          simp [hne, ih hnodup hfield]
  rw [field?, hfilter]

theorem fields?_record {fields : List (String × Json)} (h : (fields.map Prod.fst).Nodup) :
    (record fields).fields? (fields.map Prod.fst) = some (fields.map Prod.snd) := by
  have hnames : (fields.map fun field => (some field.1, field.2)).all
      (fun m : Option String × Json => m.1.isSome) = true := by
    simp
  rw [record, fields?, if_pos hnames, List.mapM_map]
  apply mapM_eq_some_map
  intro field hfield
  exact field?_of_mem h hfield

theorem IsPlain.tagged {content : Json} (h : content.IsPlain) (name : String) :
    (tagged name content).IsPlain := by
  have hcontent : ∀ field ∈ [(name, content)], field.2.IsPlain := by simpa using h
  exact IsPlain.record hcontent

theorem IsPlain.ofInt64 (n : Int64) : (ofInt64 n).IsPlain := IsPlain.integer _

end Json

/-- A form that the decoder accepts exactly when it may open all its arrays and objects. -/
class LawfulCodec (α : Type) [Codec α] : Prop where
  isPlain_encode (a : α) : (Codec.encode a).IsPlain
  decode?_encode (a : α) (depth : Nat) :
    Codec.decode? depth (Codec.encode a) =
      if (Codec.encode a).nesting ≤ depth then some a else none

namespace LawfulCodec

variable {α : Type} [Codec α] [LawfulCodec α]

theorem read?_text (a : α) :
    Codec.read? (Codec.text a) =
      if (Codec.encode a).nesting ≤ Codec.nestingLimit then some a else none := by
  rw [Codec.read?, Codec.text, (isPlain_encode a).read?_text, Option.bind_some, decode?_encode]

end LawfulCodec

instance : LawfulCodec Endpoint where
  isPlain_encode e := .text e.tag
  decode?_encode e depth := by
    change ((Json.ofText e.tag).variant? depth).bind Endpoint.ofTag? =
      if (Json.ofText e.tag).nesting ≤ depth then some e else none
    simp

instance : LawfulCodec TimePoint where
  isPlain_encode p := by
    apply Json.IsPlain.record
    intro field hfield
    simp only [List.mem_cons, List.not_mem_nil, or_false] at hfield
    rcases hfield with rfl | rfl | rfl
    · exact .text p.interval
    · exact .text p.label
    · exact LawfulCodec.isPlain_encode p.endpoint
  decode?_encode p depth := by
    cases depth with
    | zero => simp [Codec.decode?, Codec.encode, Json.record, Json.nesting]
    | succ depth =>
        have hfields : (Codec.encode p).fields? ["interval", "label", "kind"] =
            some [.ofText p.interval, .ofText p.label, Codec.encode p.endpoint] :=
          Json.fields?_record (by simp)
        have hendpoint : Codec.decode? depth (Codec.encode p.endpoint) = some p.endpoint := by
          rw [LawfulCodec.decode?_encode, if_pos]
          exact Nat.zero_le _
        have hnesting : (Codec.encode p).nesting ≤ depth + 1 := by
          simp [Codec.encode, Json.nestingItems]
        rw [if_pos hnesting]
        change Option.bind ((Codec.encode p).fields? ["interval", "label", "kind"]) _ = some p
        rw [hfields]
        simp [hendpoint]

instance : LawfulCodec Interval where
  isPlain_encode x := by
    apply Json.IsPlain.record
    intro field hfield
    simp only [List.mem_cons, List.not_mem_nil, or_false] at hfield
    rcases hfield with rfl | rfl
    · exact .text x.id
    · exact .text x.name
  decode?_encode x depth := by
    cases depth with
    | zero => simp [Codec.decode?, Codec.encode, Json.record, Json.nesting]
    | succ depth =>
        have hfields : (Codec.encode x).fields? ["id", "name"] =
            some [.ofText x.id, .ofText x.name] := Json.fields?_record (by simp)
        have hnesting : (Codec.encode x).nesting ≤ depth + 1 := by
          simp [Codec.encode, Json.nestingItems]
        rw [if_pos hnesting]
        change Option.bind ((Codec.encode x).fields? ["id", "name"]) _ = some x
        rw [hfields]
        rfl

instance : LawfulCodec Relation.Kind where
  isPlain_encode k := .text k.tag
  decode?_encode k depth := by
    change ((Json.ofText k.tag).variant? depth).bind Relation.Kind.ofTag? =
      if (Json.ofText k.tag).nesting ≤ depth then some k else none
    simp

instance : LawfulCodec Value where
  isPlain_encode v := by
    cases v with
    | int n => exact (Json.IsPlain.ofInt64 n).tagged "int"
    | bool b => exact (Json.IsPlain.bool b).tagged "bool"
  decode?_encode v depth := by
    cases depth with
    | zero => cases v <;> simp [Codec.decode?, Codec.encode]
    | succ depth =>
        cases v with
        | int n => simp [Codec.decode?, Codec.encode]
        | bool b => simp [Codec.decode?, Codec.encode, Json.bool?, Json.nesting]

/-- The form of an expression is decoded to it exactly when `depth` suffices for it. -/
def Expr.DecodesAt (depth : Nat) (e : Expr) : Prop :=
  Expr.decode? depth e.encode = if e.encode.nesting ≤ depth then some e else none

namespace Relation

theorem isPlain_form {first second : Json} (hfirst : first.IsPlain) (hsecond : second.IsPlain)
    (k : Kind) (delay : Int64) : (form k first second delay).IsPlain := by
  have hargs : (Json.array [first, second]).IsPlain := .array (by simp [hfirst, hsecond])
  have hbody : (Json.record [("args", .array [first, second]),
      ("delay", .ofInt64 delay)]).IsPlain := .record (by simp [hargs, Json.IsPlain.ofInt64])
  exact hbody.tagged k.tag

theorem ofForm?_form (operand? : Json → Option Expr) (k : Kind) (first second : Json)
    (delay : Int64) :
    ofForm? operand? (form k first second delay) =
      (do return ⟨k, ← operand? first, ← operand? second, delay⟩) := by
  have hfields : (Json.record [("args", .array [first, second]),
      ("delay", .ofInt64 delay)]).fields? ["args", "delay"] =
        some [.array [first, second], .ofInt64 delay] := Json.fields?_record (by simp)
  simp [ofForm?, form, hfields]

theorem ofForm?_form_encode {a b : Expr} {depth : Nat}
    (ha : a.DecodesAt depth) (hb : b.DecodesAt depth) (k : Kind) (delay : Int64) :
    ofForm? (Expr.decode? depth) (form k a.encode b.encode delay) =
      if max a.encode.nesting b.encode.nesting ≤ depth then some ⟨k, a, b, delay⟩ else none := by
  rw [Expr.DecodesAt] at ha hb
  rw [ofForm?_form, ha, hb]
  simp only [Nat.max_le]
  split_ifs <;> simp_all

end Relation

namespace Expr

theorem isPlain_encode (e : Expr) : e.encode.IsPlain := by
  induction e using inductionOn with
  | step e ih =>
      cases e with
      | constant n => exact (Json.IsPlain.ofInt64 n).tagged "constant"
      | timePoint p => exact (LawfulCodec.isPlain_encode p).tagged "time_point"
      | relation k a b delay =>
          have ha := ih a (by simp [args])
          have hb := ih b (by simp [args])
          exact (Relation.isPlain_form ha hb k delay).tagged "relation"
      | not a => exact (ih a (by simp [args])).tagged "not"
      | and cs =>
          rw [encode, encodeEach_eq_map]
          exact (Json.IsPlain.array (List.forall_mem_map.mpr ih)).tagged "and"
      | or cs =>
          rw [encode, encodeEach_eq_map]
          exact (Json.IsPlain.array (List.forall_mem_map.mpr ih)).tagged "or"

theorem mapM_decode?_encode {cs : List Expr} {depth : Nat} (h : ∀ c ∈ cs, c.DecodesAt depth) :
    (cs.map encode).mapM (decode? depth) =
      if Json.nestingItems (cs.map encode) ≤ depth then some cs else none := by
  induction cs with
  | nil => simp [Json.nestingItems]
  | cons c cs ih =>
      have hc : c.DecodesAt depth := h c List.mem_cons_self
      have hcs := ih fun c' hc' => h c' (List.mem_cons_of_mem c hc')
      rw [DecodesAt] at hc
      rw [List.map_cons, List.mapM_cons, hc, hcs, Json.nestingItems]
      simp only [Nat.max_le]
      split_ifs <;> simp_all

theorem decode?_operands (f : List Expr → Expr) {cs : List Expr} {depth : Nat}
    (h : ∀ c ∈ cs, c.DecodesAt depth) :
    (((cs.map encode).mapM (decode? depth)).bind fun cs => some (f cs)) =
      if Json.nestingItems (cs.map encode) ≤ depth then some (f cs) else none := by
  rw [mapM_decode?_encode h]
  split_ifs <;> rfl

theorem decodesAt (e : Expr) (depth : Nat) : e.DecodesAt depth := by
  induction e using inductionOn generalizing depth with
  | step e ih =>
      rw [DecodesAt]
      cases depth with
      | zero => cases e <;> simp [encode, decode?]
      | succ depth =>
          cases e with
          | constant n => simp [encode, decode?]
          | timePoint p => simp [encode, decode?, LawfulCodec.decode?_encode]
          | relation k a b delay =>
              rcases depth with _ | _ | _ | depth
              · simp [encode, decode?]
              · simp [encode, decode?]
              · simp [encode, decode?]
              · have hform := Relation.ofForm?_form_encode
                  (ih a (by simp [args]) depth) (ih b (by simp [args]) depth) k delay
                simp [encode, decode?, hform, Relation.toExpr]
          | not a =>
              have ha : decode? depth a.encode = _ := ih a (by simp [args]) depth
              simp [encode, decode?, ha]
          | and cs =>
              cases depth with
              | zero => simp [encode, decode?]
              | succ depth =>
                  have hargs : ∀ c ∈ cs, c.DecodesAt depth := fun c hc => ih c hc depth
                  have hcs := decode?_operands and hargs
                  simp only [encode, decode?, encodeEach_eq_map]
                  simpa using hcs
          | or cs =>
              cases depth with
              | zero => simp [encode, decode?]
              | succ depth =>
                  have hargs : ∀ c ∈ cs, c.DecodesAt depth := fun c hc => ih c hc depth
                  have hcs := decode?_operands or hargs
                  simp only [encode, decode?, encodeEach_eq_map]
                  simpa using hcs

end Expr

instance : LawfulCodec Expr where
  isPlain_encode := Expr.isPlain_encode
  decode?_encode := Expr.decodesAt

instance : LawfulCodec Relation where
  isPlain_encode r :=
    Relation.isPlain_form r.first.isPlain_encode r.second.isPlain_encode r.kind r.delay
  decode?_encode r depth := by
    rcases depth with _ | _ | _ | depth
    · simp [Codec.decode?, Codec.encode]
    · simp [Codec.decode?, Codec.encode]
    · simp [Codec.decode?, Codec.encode]
    · have hform := Relation.ofForm?_form_encode
        (r.first.decodesAt depth) (r.second.decodesAt depth) r.kind r.delay
      simp [Codec.decode?, Codec.encode, hform]

/-- The text of an expression spells its form.  It is never read as another expression, and
it is read as this one if no more than 127 arrays and objects are nested in it. -/
theorem Expr.text_round_trip (e : Expr) :
    Json.read? (Codec.text e) = some (Codec.encode e) ∧
      (∀ e' : Expr, Codec.read? (Codec.text e) = some e' → e' = e) ∧
      ((Codec.encode e).nesting ≤ 127 → Codec.read? (Codec.text e) = some e) := by
  have hread := LawfulCodec.read?_text e
  refine ⟨(LawfulCodec.isPlain_encode e).read?_text, ?_, ?_⟩
  · intro e' he'
    rw [hread, Option.ite_none_right_eq_some] at he'
    exact (Option.some.inj he'.2).symm
  · intro hnesting
    rw [hread]
    exact if_pos hnesting

end SchedulingLogic

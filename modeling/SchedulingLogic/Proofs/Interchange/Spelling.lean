import SchedulingLogic.Proofs.Interchange.Fields

/-!
# Spellings

The JSON format of expressions, said apart from how it is decoded.  Within the nesting
limit the decoder accepts exactly the spellings of an expression, and it decodes each to
the expression that it spells.
-/

namespace SchedulingLogic

theorem forall₂_congr_left {α β : Type} {R S : α → β → Prop} {xs : List α} {ys : List β}
    (h : ∀ x ∈ xs, ∀ y, R x y ↔ S x y) : List.Forall₂ R xs ys ↔ List.Forall₂ S xs ys := by
  induction xs generalizing ys with
  | nil => simp
  | cons x xs ih =>
      have hrest : ∀ ys, List.Forall₂ R xs ys ↔ List.Forall₂ S xs ys :=
        fun _ => ih fun x' hx' => h x' (List.mem_cons_of_mem x hx')
      simp only [List.forall₂_cons_left_iff, h x List.mem_cons_self, hrest]

theorem Json.nesting_content_le {name : String} {content : Json} {depth : Nat}
    (h : (tagged name content).nesting ≤ depth + 1) : content.nesting ≤ depth := by
  rw [nesting_tagged] at h
  exact Nat.le_of_succ_le_succ h

namespace Endpoint

/-- The name of an end, as a string or as the only member of an object, with null. -/
inductive Spells : Json → Endpoint → Prop
  | name (e : Endpoint) : Spells (.ofText e.tag) e
  | member (e : Endpoint) : Spells (.tagged e.tag .null) e

theorem decode?_eq_some_iff {depth : Nat} {j : Json} {e : Endpoint} (h : j.nesting ≤ depth) :
    Codec.decode? depth j = some e ↔ Spells j e := by
  change (j.variant? depth).bind ofTag? = some e ↔ _
  simp only [Option.bind_eq_some_iff, Json.variant?_eq_some_iff h, ofTag?_eq_some_iff]
  constructor
  · rintro ⟨s, rfl | rfl, rfl⟩
    · exact .name e
    · exact .member e
  · rintro (_ | _)
    · exact ⟨e.tag, Or.inl rfl, rfl⟩
    · exact ⟨e.tag, Or.inr rfl, rfl⟩

end Endpoint

namespace TimePoint

def Spells (j : Json) (p : TimePoint) : Prop :=
  ∃ endpoint, Endpoint.Spells endpoint p.endpoint ∧
    j.HasFields ["interval", "label", "kind"] [.ofText p.interval, .ofText p.label, endpoint]

theorem decode?_eq_some_iff {depth : Nat} {j : Json} {p : TimePoint} (h : j.nesting ≤ depth) :
    Codec.decode? depth j = some p ↔ Spells j p := by
  have hfields : ∀ values, j.fields? ["interval", "label", "kind"] = some values ↔
      j.HasFields ["interval", "label", "kind"] values :=
    fun _ => Json.fields?_eq_some_iff (by decide)
  cases depth with
  | zero =>
      constructor
      · intro hp
        cases hp
      · rintro ⟨endpoint, _, hbody⟩
        have hlt := hbody.nesting_lt List.mem_cons_self
        omega
  | succ depth =>
      change Option.bind (j.fields? ["interval", "label", "kind"]) _ = some p ↔ _
      simp only [Option.bind_eq_some_iff, hfields]
      constructor
      · rintro ⟨values, hbody, hp⟩
        split at hp
        · rename_i interval label endpoint
          have hendpoint : endpoint.nesting < j.nesting := hbody.nesting_lt (by simp)
          have hle : endpoint.nesting ≤ depth := by omega
          simp only [Option.bind_eq_bind, Option.bind_eq_some_iff, Json.text?_eq_some_iff,
            Endpoint.decode?_eq_some_iff hle, Option.pure_def, Option.some.injEq] at hp
          obtain ⟨_, rfl, _, rfl, e, he, rfl⟩ := hp
          exact ⟨endpoint, he, hbody⟩
        · simp at hp
      · rintro ⟨endpoint, he, hbody⟩
        have hendpoint : endpoint.nesting < j.nesting := hbody.nesting_lt (by simp)
        have hle : endpoint.nesting ≤ depth := by omega
        have hdecode := (Endpoint.decode?_eq_some_iff hle).mpr he
        exact ⟨_, hbody, by simp [hdecode]⟩

end TimePoint

namespace Relation

/-- A relation whose operands are spelled as `Operand` says. -/
inductive Spells (Operand : Json → Expr → Prop) : Json → Relation → Prop
  | tagged {body first second : Json} (r : Relation)
      (hbody : body.HasFields ["args", "delay"] [.array [first, second], .ofInt64 r.delay])
      (hfirst : Operand first r.first) (hsecond : Operand second r.second) :
      Spells Operand (.tagged r.kind.tag body) r

theorem nesting_operand_le {body first second delay content : Json}
    (hbody : body.HasFields ["args", "delay"] [.array [first, second], delay])
    (hcontent : content ∈ [first, second]) (tag : String) :
    content.nesting + 3 ≤ (Json.tagged tag body).nesting := by
  have hargs := hbody.nesting_lt List.mem_cons_self
  have hitem := Json.nestingItems_le_iff.mp (Nat.le_refl _) content hcontent
  rw [Json.nesting_array] at hargs
  rw [Json.nesting_tagged]
  omega

theorem ofForm?_eq_some_iff {operand? : Json → Option Expr} {Operand : Json → Expr → Prop}
    {j : Json} {r : Relation}
    (h : ∀ content, content.nesting + 3 ≤ j.nesting →
      ∀ a, operand? content = some a ↔ Operand content a) :
    ofForm? operand? j = some r ↔ Spells Operand j r := by
  have hfields : ∀ body values, Json.fields? ["args", "delay"] body = some values ↔
      body.HasFields ["args", "delay"] values :=
    fun _ _ => Json.fields?_eq_some_iff (by decide)
  constructor
  · intro hr
    simp only [ofForm?, Option.bind_eq_bind, Option.bind_eq_some_iff, Option.pure_def,
      Json.tagged?_eq_some_iff, hfields, Kind.ofTag?_eq_some_iff, Prod.exists] at hr
    obtain ⟨_, body, rfl, kind, rfl, values, hbody, hr⟩ := hr
    split at hr
    · simp only [Option.bind_eq_some_iff, Json.items?_eq_some_iff] at hr
      obtain ⟨items, rfl, hr⟩ := hr
      split at hr
      · rename_i first second
        have hfirst := h first (nesting_operand_le hbody (by simp) kind.tag)
        have hsecond := h second (nesting_operand_le hbody (by simp) kind.tag)
        simp only [Option.bind_eq_some_iff, Json.int64?_eq_some_iff, hfirst, hsecond,
          Option.some.injEq] at hr
        obtain ⟨a, ha, b, hb, delay, rfl, rfl⟩ := hr
        exact .tagged ⟨kind, a, b, delay⟩ hbody ha hb
      · simp at hr
    · simp at hr
  · rintro ⟨_, hbody, hfirst, hsecond⟩
    have ha := (h _ (nesting_operand_le hbody (by simp) _) _).mpr hfirst
    have hb := (h _ (nesting_operand_le hbody (by simp) _) _).mpr hsecond
    simp [ofForm?, (hfields _ _).mpr hbody, ha, hb]

end Relation

namespace Expr

/-- The JSON values that stand for an expression. -/
inductive Spells : Json → Expr → Prop
  | constant (n : Int64) : Spells (.tagged "constant" (.ofInt64 n)) (constant n)
  | timePoint {content : Json} {p : TimePoint} (h : TimePoint.Spells content p) :
      Spells (.tagged "time_point" content) (timePoint p)
  | relation {content : Json} {k : Relation.Kind} {a b : Expr} {delay : Int64}
      (h : Relation.Spells Spells content ⟨k, a, b, delay⟩) :
      Spells (.tagged "relation" content) (relation k a b delay)
  | not {content : Json} {a : Expr} (h : Spells content a) :
      Spells (.tagged "not" content) (not a)
  | and {contents : List Json} {cs : List Expr} (h : List.Forall₂ Spells contents cs) :
      Spells (.tagged "and" (.array contents)) (and cs)
  | or {contents : List Json} {cs : List Expr} (h : List.Forall₂ Spells contents cs) :
      Spells (.tagged "or" (.array contents)) (or cs)

theorem Spells.nesting_pos {j : Json} {e : Expr} (h : Spells j e) : 0 < j.nesting := by
  cases h <;> simp

/-- The decoder is exact at a depth when it accepts just the spellings that nest no deeper. -/
def ExactAt (depth : Nat) : Prop :=
  ∀ j e, j.nesting ≤ depth → (decode? depth j = some e ↔ Spells j e)

/-- The operands of a combinator: the items of an array, which is opened first. -/
def operands? (depth : Nat) (content : Json) : Option (List Expr) :=
  match depth with
  | depth + 1 => content.items?.bind fun items => items.mapM (decode? depth)
  | 0 => none

theorem map_operands? (f : List Expr → Expr) (depth : Nat) (content : Json) :
    (operands? depth content).map f =
      match depth with
      | depth + 1 => content.items?.bind fun items =>
          (items.mapM (decode? depth)).bind fun cs => some (f cs)
      | 0 => none := by
  cases depth with
  | zero => rfl
  | succ depth =>
      rw [operands?, Option.map_bind]
      simp only [Function.comp_def, Option.map_eq_bind]

theorem decode?_tagged (depth : Nat) (name : String) (content : Json) :
    decode? (depth + 1) (.tagged name content) =
      if name = "constant" then content.int64?.map constant
      else if name = "time_point" then (Codec.decode? depth content).map timePoint
      else if name = "relation" then (Codec.decode? depth content).map Relation.toExpr
      else if name = "not" then (decode? depth content).map not
      else if name = "and" then (operands? depth content).map and
      else if name = "or" then (operands? depth content).map or
      else none := by
  rw [decode?.eq_2]
  simp only [Json.tagged?_tagged, Option.bind_eq_bind, Option.bind_some]
  split_ifs with hconstant hpoint hrelation hnot hjunction hand hor
  · rfl
  · rfl
  · rcases depth with _ | _ | _ | depth <;> rfl
  · rfl
  · exact (map_operands? and depth content).symm
  · exact (map_operands? or depth content).symm
  · simp_all
  · simp_all
  · simp_all
  · rfl

theorem operands?_eq_some_iff {depth : Nat} (hexact : ∀ n < depth, ExactAt n) {content : Json}
    (h : content.nesting ≤ depth) {cs : List Expr} :
    operands? depth content = some cs ↔
      ∃ contents, content = .array contents ∧ List.Forall₂ Spells contents cs := by
  cases depth with
  | zero =>
      constructor
      · intro hcs
        cases hcs
      · rintro ⟨contents, rfl, _⟩
        simp at h
  | succ depth =>
      simp only [operands?, Option.bind_eq_some_iff, Json.items?_eq_some_iff]
      apply exists_congr
      intro contents
      apply and_congr_right
      rintro rfl
      rw [Json.nesting_array] at h
      have hitems := Json.nestingItems_le_iff.mp (Nat.le_of_succ_le_succ h)
      have hdecode : ∀ item ∈ contents, ∀ c, decode? depth item = some c ↔ Spells item c := by
        intro item hitem c
        exact hexact depth (Nat.lt_succ_self depth) item c (hitems item hitem)
      rw [mapM_eq_some_iff]
      exact forall₂_congr_left hdecode

theorem decode?_relation_iff {depth : Nat} (hexact : ∀ n < depth, ExactAt n) {content : Json}
    (h : content.nesting ≤ depth) {r : Relation} :
    Codec.decode? depth content = some r ↔ Relation.Spells Spells content r := by
  by_cases hdepth : 3 ≤ depth
  · obtain ⟨n, rfl⟩ := Nat.exists_eq_add_of_le' hdepth
    apply Relation.ofForm?_eq_some_iff
    intro operand hoperand a
    exact hexact n (by omega) operand a (by omega)
  · have hnone : Codec.decode? depth content = (none : Option Relation) := by
      rcases depth with _ | _ | _ | depth
      · rfl
      · rfl
      · rfl
      · omega
    rw [hnone]
    constructor
    · intro hr
      cases hr
    · rintro ⟨_, hbody, _, _⟩
      have hle := Relation.nesting_operand_le hbody List.mem_cons_self r.kind.tag
      omega

theorem spells_of_decode?_succ {depth : Nat} (hexact : ∀ n < depth + 1, ExactAt n) {j : Json}
    {e : Expr} (h : j.nesting ≤ depth + 1) (he : decode? (depth + 1) j = some e) :
    Spells j e := by
  have hbelow : ∀ n < depth, ExactAt n := fun n hn => hexact n (Nat.lt_succ_of_lt hn)
  cases hj : j.tagged? with
  | none => simp [decode?, hj] at he
  | some tagged =>
      obtain ⟨name, content⟩ := tagged
      obtain rfl := Json.tagged?_eq_some_iff.mp hj
      have hcontent := Json.nesting_content_le h
      rw [decode?_tagged] at he
      split_ifs at he with hconstant hpoint hrelation hnot hand hor
      · obtain ⟨n, hn, rfl⟩ := Option.map_eq_some_iff.mp he
        rw [hconstant, Json.int64?_eq_some_iff.mp hn]
        exact .constant n
      · obtain ⟨p, hp, rfl⟩ := Option.map_eq_some_iff.mp he
        rw [hpoint]
        exact .timePoint ((TimePoint.decode?_eq_some_iff hcontent).mp hp)
      · obtain ⟨r, hr, rfl⟩ := Option.map_eq_some_iff.mp he
        rw [hrelation]
        exact .relation ((decode?_relation_iff hbelow hcontent).mp hr)
      · obtain ⟨a, ha, rfl⟩ := Option.map_eq_some_iff.mp he
        rw [hnot]
        exact .not ((hexact depth (Nat.lt_succ_self depth) content a hcontent).mp ha)
      · obtain ⟨cs, hcs, rfl⟩ := Option.map_eq_some_iff.mp he
        obtain ⟨contents, rfl, hspells⟩ := (operands?_eq_some_iff hbelow hcontent).mp hcs
        rw [hand]
        exact .and hspells
      · obtain ⟨cs, hcs, rfl⟩ := Option.map_eq_some_iff.mp he
        obtain ⟨contents, rfl, hspells⟩ := (operands?_eq_some_iff hbelow hcontent).mp hcs
        rw [hor]
        exact .or hspells

theorem Spells.decode?_succ {depth : Nat} (hexact : ∀ n < depth + 1, ExactAt n) {j : Json}
    {e : Expr} (h : j.nesting ≤ depth + 1) (he : Spells j e) :
    decode? (depth + 1) j = some e := by
  have hbelow : ∀ n < depth, ExactAt n := fun n hn => hexact n (Nat.lt_succ_of_lt hn)
  cases he with
  | constant n => simp [decode?_tagged]
  | timePoint hp =>
      have hdecode := (TimePoint.decode?_eq_some_iff (Json.nesting_content_le h)).mpr hp
      simp [decode?_tagged, hdecode]
  | relation hr =>
      have hdecode := (decode?_relation_iff hbelow (Json.nesting_content_le h)).mpr hr
      simp [decode?_tagged, hdecode, Relation.toExpr]
  | @not content a ha =>
      have hexact := hexact depth (Nat.lt_succ_self depth) content a
      have hdecode := (hexact (Json.nesting_content_le h)).mpr ha
      simp [decode?_tagged, hdecode]
  | and hcs =>
      have hcontent := Json.nesting_content_le h
      have hdecode := (operands?_eq_some_iff hbelow hcontent).mpr ⟨_, rfl, hcs⟩
      simp [decode?_tagged, hdecode]
  | or hcs =>
      have hcontent := Json.nesting_content_le h
      have hdecode := (operands?_eq_some_iff hbelow hcontent).mpr ⟨_, rfl, hcs⟩
      simp [decode?_tagged, hdecode]

theorem exactAt (depth : Nat) : ExactAt depth := by
  -- A relation opens three levels before its operands, hence strong induction.
  induction depth using Nat.strongRecOn with
  | ind depth ih =>
      intro j e h
      cases depth with
      | zero =>
          constructor
          · intro he
            simp [decode?] at he
          · intro he
            exact absurd he.nesting_pos (by omega)
      | succ depth => exact ⟨spells_of_decode?_succ ih h, Spells.decode?_succ ih h⟩

/-- A value that nests no deeper than a text may is decoded to an expression exactly if it spells it,
and it is refused if it spells none. -/
theorem decode?_exact {j : Json} (h : j.nesting ≤ 127) :
    (∀ e : Expr, Codec.decode? Codec.nestingLimit j = some e ↔ Spells j e) ∧
      ((Codec.decode? Codec.nestingLimit j : Option Expr) = none ↔ ¬∃ e, Spells j e) := by
  have hexact : ∀ e : Expr, Codec.decode? Codec.nestingLimit j = some e ↔ Spells j e :=
    fun e => exactAt Codec.nestingLimit j e h
  refine ⟨hexact, ?_⟩
  simp only [Option.eq_none_iff_forall_ne_some, ← hexact, ne_eq, not_exists]

/-- Fields out of order among an unknown one, a point as a list, an end as an object. -/
theorem decode?_exact_reordered :
    let point : Json := .array [.ofText "a", .ofText "x", .tagged "end" .null]
    let body : Json := .object [(some "note", .array []), (some "delay", .ofInt64 (-2)),
      (some "args", .array [.tagged "constant" (.ofInt64 1), .tagged "time_point" point])]
    let j : Json := .tagged "relation" (.tagged "precedence" body)
    j.nesting ≤ 127 ∧
      Spells j (relation .precedence (constant 1) (timePoint ⟨"a", "x", .finish⟩) (-2)) :=
  ⟨by decide, ((decode?_exact (by decide)).1 _).mp rfl⟩

end Expr

end SchedulingLogic

import SchedulingLogic.Proofs.Flattening

/-!
# Rebuilding expressions

Every node can be made again from its operands, by the function that makes nodes of its kind, and
so every expression from its leaves up.  A relation takes a list of operands or a pair of them; the
list must have two entries.  A combinator can be made by its operator too, unless its first operand
is that combinator again and would be taken apart.
-/

namespace SchedulingLogic

namespace Relation

variable {k : Kind} {operands : List Expr} {delay : Int64}

theorem ofArgs_eq_ok_iff {r : Relation} :
    ofArgs k operands delay = .ok r ↔ r.kind = k ∧ r.args = operands ∧ r.delay = delay := by
  constructor
  · intro h
    rcases operands with _ | ⟨a, _ | ⟨b, _ | ⟨c, cs⟩⟩⟩
    · cases h
    · cases h
    · cases h
      exact ⟨rfl, rfl, rfl⟩
    · cases h
  · rintro ⟨rfl, rfl, rfl⟩
    exact ofArgs_args r

theorem ofArgs_of_length_ne (h : operands.length ≠ arity) :
    ofArgs k operands delay = .error (.arityMismatch arity operands.length) := by
  rcases operands with _ | ⟨a, _ | ⟨b, _ | ⟨c, cs⟩⟩⟩
  · rfl
  · rfl
  · exact absurd rfl h
  · rfl

theorem exists_ofArgs_eq_ok_iff :
    (∃ r, ofArgs k operands delay = .ok r) ↔ operands.length = arity := by
  constructor
  · rintro ⟨r, h⟩
    obtain ⟨_, rfl, _⟩ := ofArgs_eq_ok_iff.mp h
    rfl
  · intro h
    obtain ⟨a, b, rfl⟩ := List.length_eq_two.mp h
    exact ⟨⟨k, a, b, delay⟩, rfl⟩

/-- The relation of the same kind and delay over listed operands. -/
def remake (r : Relation) (operands : List Expr) : Except Fault Relation :=
  ofArgs r.kind operands r.delay

/-- The relation with listed operands in place of its own, where these are a pair. -/
def substitute (r : Relation) : List Expr → Except Fault Relation
  | [first, second] => .ok (r.withArgs first second)
  | operands => .error (.arityMismatch arity operands.length)

theorem substitute_eq_remake (r : Relation) (operands : List Expr) :
    r.substitute operands = r.remake operands := by
  rcases operands with _ | ⟨a, _ | ⟨b, _ | ⟨c, cs⟩⟩⟩ <;> rfl

theorem remake_self (r : Relation) : r.remake r.args = .ok r := ofArgs_args r

theorem substitute_self (r : Relation) : r.substitute r.args = .ok r :=
  congrArg Except.ok r.withArgs_self

end Relation

namespace Expr

/-- A node like this one over other operands.  `relate` says how relations are made. -/
def remake (relate : Relation → List Expr → Except Fault Relation) :
    Expr → List Expr → Except Fault Expr
  | constant n, _ => .ok (constant n)
  | timePoint p, _ => .ok (timePoint p)
  | relation k a b delay, operands => (relate ⟨k, a, b, delay⟩ operands).map Relation.toExpr
  | not _, [c] => .ok (~~~c)
  | not _, operands => .error (.arityMismatch 1 operands.length)
  | and _, operands => .ok (and operands)
  | or _, operands => .ok (or operands)

/-- Takes every node apart and makes it again, from the leaves up. -/
def rebuild (relate : Relation → List Expr → Except Fault Relation) (e : Expr) :
    Except Fault Expr :=
  e.fold fun node rebuilt => rebuilt.mapM id >>= node.remake relate

variable {relate : Relation → List Expr → Except Fault Relation}

theorem rebuild_eq (e : Expr) :
    e.rebuild relate = e.args.mapM (rebuild relate) >>= e.remake relate := by
  rw [rebuild, fold_eq, List.mapM_map]
  rfl

theorem mapM_eq_ok_self {f : Expr → Except Fault Expr} {cs : List Expr}
    (h : ∀ c ∈ cs, f c = .ok c) : cs.mapM f = .ok cs := by
  induction cs with
  | nil => rfl
  | cons c cs ih =>
      have hcs := ih fun c' hc' => h c' (List.mem_cons_of_mem c hc')
      rw [List.mapM_cons, h c List.mem_cons_self, hcs]
      rfl

theorem remake_args (h : ∀ r, relate r r.args = .ok r) (e : Expr) :
    e.remake relate e.args = .ok e := by
  cases e with
  | relation k a b delay =>
      have hr : relate ⟨k, a, b, delay⟩ [a, b] = .ok ⟨k, a, b, delay⟩ := h ⟨k, a, b, delay⟩
      rw [args, remake, hr]
      rfl
  | _ => rfl

theorem rebuild_eq_ok (h : ∀ r, relate r r.args = .ok r) (e : Expr) :
    e.rebuild relate = .ok e := by
  induction e using inductionOn with
  | step e ih =>
      rw [rebuild_eq, mapM_eq_ok_self ih]
      exact remake_args h e

/-- Once its operands are rebuilt, a node made over them is the node itself. -/
theorem mapM_rebuild_bind_remake (h : ∀ r, relate r r.args = .ok r) (e : Expr) :
    e.args.mapM (rebuild relate) >>= e.remake relate = .ok e := by
  rw [← rebuild_eq]
  exact rebuild_eq_ok h e

/-- No expression is one of its own operands. -/
theorem notMem_args_self (e : Expr) : e ∉ e.args :=
  fun h => Nat.lt_irrefl e.depth (depth_lt_of_mem_args h)

end Expr

/-- A chain over the operands of a combinator is that combinator unless the first operand is
flattened.  If it is, it would have to be its own only operand. -/
theorem Combinator.foldl_join_eq_make_iff (m : Combinator) (c : Expr) {cs : List Expr}
    (h : cs ≠ []) :
    cs.foldl m.join c = m.make (c :: cs) ↔ ∀ ds, c ≠ m.make ds := by
  rw [foldl_join m c h]
  constructor
  · intro heq ds hc
    have hparts : m.parts c = ds := by rw [hc, parts_make]
    have hargs : c.args = ds := by rw [hc, args_make]
    rw [hparts] at heq
    have hds : ds = [c] := List.append_cancel_right (m.make_injective heq)
    have hmem : c ∈ c.args := by
      rw [hargs, hds]
      exact List.mem_cons_self
    exact absurd hmem c.notMem_args_self
  · intro hc
    rw [parts_of_forall_ne m hc, List.singleton_append]

/-- Taking an expression apart and making its nodes again gives it back, whichever way relations
are made; both ways make the same relation of any operands.  An operator gives a combinator back exactly when its first operand is not flattened.  A
relation is made of any two operands, and of no other number. -/
theorem Expr.rebuild_spec :
    (∀ e : Expr,
        (e.args.mapM (rebuild Relation.remake) >>= e.remake Relation.remake = .ok e ∧
          e.rebuild Relation.remake = .ok e) ∧
        e.args.mapM (rebuild Relation.substitute) >>= e.remake Relation.substitute = .ok e ∧
          e.rebuild Relation.substitute = .ok e) ∧
      (∀ (r : Relation) (operands : List Expr), r.substitute operands = r.remake operands) ∧
      (∀ (m : Combinator) (c : Expr) (cs : List Expr), cs ≠ [] →
        (cs.foldl m.join c = m.make (c :: cs) ↔ ∀ ds, c ≠ m.make ds)) ∧
      ∀ (k : Relation.Kind) (operands : List Expr) (delay : Int64),
        ((∃ r, Relation.ofArgs k operands delay = .ok r) ↔ operands.length = 2) ∧
          (∀ r, Relation.ofArgs k operands delay = .ok r ↔
            r.kind = k ∧ r.args = operands ∧ r.delay = delay) ∧
          (operands.length ≠ 2 →
            Relation.ofArgs k operands delay = .error (.arityMismatch 2 operands.length)) := by
  refine ⟨?_, Relation.substitute_eq_remake, ?_, ?_⟩
  · intro e
    refine ⟨⟨?_, ?_⟩, ?_, ?_⟩
    · exact mapM_rebuild_bind_remake Relation.remake_self e
    · exact rebuild_eq_ok Relation.remake_self e
    · exact mapM_rebuild_bind_remake Relation.substitute_self e
    · exact rebuild_eq_ok Relation.substitute_self e
  · intro m c cs h
    exact m.foldl_join_eq_make_iff c h
  · intro k operands delay
    exact ⟨Relation.exists_ofArgs_eq_ok_iff, fun _ => Relation.ofArgs_eq_ok_iff,
      Relation.ofArgs_of_length_ne⟩

/-- A nested expression, a disjunction that its own operator makes wider, and a single operand. -/
theorem Expr.rebuild_spec_nested :
    let r : Expr := relation .synchronization (constant 4) (not (constant 5)) 1
    let c : Expr := or [constant 1, r]
    let e : Expr := and [not (or [c, r]), or []]
    ((e.args.mapM (rebuild Relation.remake) >>= e.remake Relation.remake = .ok e ∧
          e.rebuild Relation.remake = .ok e) ∧
        e.args.mapM (rebuild Relation.substitute) >>= e.remake Relation.substitute = .ok e ∧
          e.rebuild Relation.substitute = .ok e) ∧
      ([r] ≠ [] ∧ [r].foldl Combinator.disjunction.join c = or [constant 1, r, r] ∧
        ([r].foldl Combinator.disjunction.join c = or [c, r] ↔
          ∀ ds, c ≠ Combinator.disjunction.make ds)) ∧
      [c].length ≠ 2 ∧
        Relation.ofArgs .precedence [c] 7 = .error (.arityMismatch 2 [c].length) := by
  intro r c e
  obtain ⟨hrebuild, _, hchain, hofArgs⟩ := rebuild_spec
  have hr : [r] ≠ [] := List.cons_ne_nil r []
  have hlength : [c].length ≠ 2 := by decide
  exact ⟨hrebuild e, ⟨hr, rfl, hchain .disjunction c [r] hr⟩, hlength,
    (hofArgs .precedence [c] 7).2.2 hlength⟩

end SchedulingLogic

import SchedulingLogic.Proofs.Combinators
import SchedulingLogic.Proofs.Events

/-!
# Operands that stop a node

A node looks at its operands from left to right.  The first operand that fails, or has a value
of a type that the node does not need, stops it: with its own fault, or with a mismatch that
names the node.  Hence two nodes of different names that need the same of the same operands
fail together, and with the same fault unless they refuse a value.
-/

namespace SchedulingLogic

namespace Expr

/-- The expression evaluates to a value of this type. -/
def HasValue (s : Schedule) (type : String) (e : Expr) : Prop :=
  ∃ v, (e.evaluate s).outcome = .ok v ∧ v.typeName = type

/-- The fault by which an operand stops a node that needs values of type `expected`. -/
def stop? (s : Schedule) (expected node : String) (c : Expr) : Option Fault :=
  match (c.evaluate s).outcome with
  | .error f => some f
  | .ok v => if v.typeName = expected then none else some (.typeMismatch node expected v.typeName)

/-- The faults by which one operand stops the nodes `m` and `n`: its own fault, or the refusal
of its value by either node. -/
inductive StopsBoth (s : Schedule) (expected m n : String) (c : Expr) : Fault → Fault → Prop
  | fails {f : Fault} (h : (c.evaluate s).outcome = .error f) : StopsBoth s expected m n c f f
  | refused {v : Value} (h : (c.evaluate s).outcome = .ok v) (hv : v.typeName ≠ expected) :
      StopsBoth s expected m n c (.typeMismatch m expected v.typeName)
        (.typeMismatch n expected v.typeName)

end Expr

/-- The computations have the same value or fail together.  If they fail then because of the
same operand, the first in `cs` that has no value of type `expected`, and with the same fault
up to the names `m` and `n` of the nodes that refuse a value. -/
structure AgreeUpToNode (s : Schedule) (expected m n : String) (cs : List Expr)
    (x y : Traced Value) : Prop where
  ok_iff : ∀ v, x.outcome = .ok v ↔ y.outcome = .ok v
  error_iff : (∃ f, x.outcome = .error f) ↔ ∃ g, y.outcome = .error g
  stopsBoth : ∀ f g, x.outcome = .error f → y.outcome = .error g →
    ∃ before c after, cs = before ++ c :: after ∧ (∀ b ∈ before, b.HasValue s expected) ∧
      c.StopsBoth s expected m n f g

namespace Expr

variable {s : Schedule} {expected m n node : String} {c e : Expr} {cs : List Expr} {f : Fault}

theorem stop?_eq_none_iff : c.stop? s expected node = none ↔ c.HasValue s expected := by
  rw [stop?, HasValue]
  cases (c.evaluate s).outcome with
  | error f => simp
  | ok v => simp

theorem exists_stopsBoth (h : c.stop? s expected m = some f) (n : String) :
    ∃ g, c.stop? s expected n = some g ∧ c.StopsBoth s expected m n f g := by
  cases hc : (c.evaluate s).outcome with
  | error f' =>
      have hf : f' = f := by simpa [stop?, hc] using h
      subst hf
      refine ⟨f', ?_, .fails hc⟩
      simp [stop?, hc]
  | ok v =>
      by_cases hv : v.typeName = expected
      · simp [stop?, hc, hv] at h
      · have hf : .typeMismatch m expected v.typeName = f := by simpa [stop?, hc, hv] using h
        subst hf
        refine ⟨.typeMismatch n expected v.typeName, ?_, .refused hc hv⟩
        simp [stop?, hc, hv]

/-- The same operand stops a node of another name too, since it is the first that can. -/
theorem exists_findSome?_stop? (h : cs.findSome? (stop? s expected m) = some f) (n : String) :
    ∃ g, cs.findSome? (stop? s expected n) = some g ∧
      ∃ before c after, cs = before ++ c :: after ∧ (∀ b ∈ before, b.HasValue s expected) ∧
        c.StopsBoth s expected m n f g := by
  obtain ⟨before, c, after, rfl, hc, hbefore⟩ := List.findSome?_eq_some_iff.mp h
  obtain ⟨g, hg, hboth⟩ := exists_stopsBoth hc n
  have hvalues : ∀ b ∈ before, b.HasValue s expected := by
    intro b hb
    exact stop?_eq_none_iff.mp (hbefore b hb)
  refine ⟨g, ?_, before, c, after, rfl, hvalues, hboth⟩
  apply List.findSome?_eq_some_iff.mpr
  refine ⟨before, c, after, rfl, hg, ?_⟩
  intro b hb
  exact stop?_eq_none_iff.mpr (hvalues b hb)

end Expr

theorem AgreeUpToNode.of_findSome? {s : Schedule} {expected m n : String} {cs : List Expr}
    {x y : Traced Value} (hok : ∀ v, x.outcome = .ok v ↔ y.outcome = .ok v)
    (hx : ∀ f, x.outcome = .error f ↔ cs.findSome? (Expr.stop? s expected m) = some f)
    (hy : ∀ g, y.outcome = .error g ↔ cs.findSome? (Expr.stop? s expected n) = some g) :
    AgreeUpToNode s expected m n cs x y where
  ok_iff := hok
  error_iff := by simp only [Traced.exists_outcome_eq_error_iff, hok]
  stopsBoth := by
    intro f g hf hg
    obtain ⟨g', hg', hstop⟩ := Expr.exists_findSome?_stop? ((hx f).mp hf) n
    have heq : g' = g := Option.some.inj (hg'.symm.trans ((hy g).mp hg))
    exact heq ▸ hstop

namespace Expr

variable {s : Schedule} {e : Expr} {f : Fault}

theorem stop?_boolean (node : String) (c : Expr) :
    c.stop? s "boolean" node = (c.faults s ++ unlessBoolean node c).head? := by
  rw [stop?, outcome_evaluate, outcome_run]
  cases c.faults s with
  | cons f fs => rfl
  | nil =>
      cases hleaf : c.isLeaf with
      | true => simp [value_of_isLeaf s hleaf, unlessBoolean, hleaf, Value.typeName]
      | false => simp [value_of_not_isLeaf s hleaf, unlessBoolean, hleaf, Value.typeName]

theorem stop?_integer (node : String) (c : Expr) :
    c.stop? s "integer" node = (c.faults s ++ unlessInteger node c).head? := by
  rw [stop?, outcome_evaluate, outcome_run]
  cases c.faults s with
  | cons f fs => rfl
  | nil =>
      rw [unlessInteger, isBoolean_eq_not_isLeaf]
      cases hleaf : c.isLeaf with
      | true => simp [value_of_isLeaf s hleaf, Value.typeName]
      | false => simp [value_of_not_isLeaf s hleaf, Value.typeName]

theorem head?_faults_of_not_isLeaf (h : e.isLeaf = false) :
    (e.faults s).head? = e.args.findSome? fun c => (c.faults s ++ e.mismatch c).head? := by
  have hown : e.ownFaults s = [] := by cases e <;> simp_all [isLeaf, ownFaults]
  rw [faults_eq, hown, List.nil_append, List.head?_flatMap]

theorem outcome_relation_eq_error_iff {k : Relation.Kind} {a b : Expr} {delay : Int64} :
    ((relation k a b delay).evaluate s).outcome = .error f ↔
      [a, b].findSome? (stop? s "integer" k.name) = some f := by
  have hstop : stop? s "integer" k.name =
      fun c => (c.faults s ++ (relation k a b delay).mismatch c).head? := by
    funext c
    rw [mismatch_relation]
    exact stop?_integer k.name c
  rw [outcome_eq_error_iff, head?_faults_of_not_isLeaf rfl, hstop]
  rfl

theorem isBoolean_of_combinator? {name : String} (h : e.combinator? = some name) :
    e.isBoolean = true := by
  cases e <;> simp_all [combinator?, isBoolean]

theorem outcome_eq_error_iff_of_combinator? {name : String} (h : e.combinator? = some name) :
    (e.evaluate s).outcome = .error f ↔
      e.args.findSome? (stop? s "boolean" name) = some f := by
  have hleaf : e.isLeaf = false := by
    simpa [isBoolean_eq_not_isLeaf] using isBoolean_of_combinator? h
  have hstop : stop? s "boolean" name = fun c => (c.faults s ++ e.mismatch c).head? := by
    funext c
    rw [mismatch_of_combinator? h]
    exact stop?_boolean name c
  rw [outcome_eq_error_iff, head?_faults_of_not_isLeaf hleaf, hstop]

end Expr

end SchedulingLogic

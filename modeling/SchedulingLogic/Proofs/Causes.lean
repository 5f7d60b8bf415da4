import SchedulingLogic.Proofs.Combinators

/-!
# Causes of faults

A fault of an evaluation always has its cause in the expression: a point without an instant,
or an operand that has a value of the wrong type for its node.  An evaluation to an integer
is no fault until a truth value is asked for, and only then is the whole expression blamed.
-/

namespace SchedulingLogic

namespace Expr

/-- Something in the expression is wrong in the way that the fault tells. -/
inductive HasCause (s : Schedule) (e : Expr) : Fault → Prop
  | missing {p : TimePoint} (hp : p ∈ e.timePoints) (h : s.get? p = none) :
      HasCause s e (.unassigned p.text)
  | precedence {r : Relation} {c : Expr} {b : Bool} (hr : r ∈ e.relations)
      (hkind : r.kind = .precedence) (hc : c ∈ r.args)
      (h : (c.evaluate s).outcome = .ok (.bool b)) :
      HasCause s e (.typeMismatch "Precedence" "integer" "boolean")
  | synchronization {r : Relation} {c : Expr} {b : Bool} (hr : r ∈ e.relations)
      (hkind : r.kind = .synchronization) (hc : c ∈ r.args)
      (h : (c.evaluate s).outcome = .ok (.bool b)) :
      HasCause s e (.typeMismatch "Synchronization" "integer" "boolean")
  | combinator {node c : Expr} {name : String} {n : Int64} (hnode : node ∈ e.preorder)
      (hname : node.combinator? = some name) (hc : c ∈ node.args)
      (h : (c.evaluate s).outcome = .ok (.int n)) :
      HasCause s e (.typeMismatch name "boolean" "integer")

variable {s : Schedule} {e : Expr} {f : Fault}

theorem combinator?_ne_expression {name : String} (h : e.combinator? = some name) :
    name ≠ "expression" := by
  rintro rfl
  cases e <;> simp [combinator?] at h

theorem HasCause.ne_arityMismatch (h : e.HasCause s f) (expected found : Nat) :
    f ≠ .arityMismatch expected found := by
  cases h <;> simp

theorem HasCause.ne_typeMismatch_expression (h : e.HasCause s f) (expected found : String) :
    f ≠ .typeMismatch "expression" expected found := by
  cases h with
  | missing hp h => simp
  | precedence hr hkind hc h => simp
  | synchronization hr hkind hc h => simp
  | combinator hnode hname hc h => simp [combinator?_ne_expression hname]

theorem HasCause.of_mem_args {c : Expr} (h : c.HasCause s f) (hc : c ∈ e.args) :
    e.HasCause s f := by
  cases h with
  | missing hp h => exact .missing (mem_timePoints_of_mem_args hc hp) h
  | precedence hr hkind hmem h =>
      exact .precedence (mem_relations_of_mem_args hc hr) hkind hmem h
  | synchronization hr hkind hmem h =>
      exact .synchronization (mem_relations_of_mem_args hc hr) hkind hmem h
  | combinator hnode hname hmem h =>
      exact .combinator (mem_preorder_of_mem_args hc hnode) hname hmem h

theorem hasCause_of_mem_ownFaults (h : f ∈ e.ownFaults s) : e.HasCause s f := by
  cases e with
  | timePoint p =>
      cases hp : s.get? p with
      | some v => simp [ownFaults, hp] at h
      | none =>
          have hf : f = .unassigned p.text := by simpa [ownFaults, hp] using h
          rw [hf]
          exact .missing (mem_timePoints_self p) hp
  | _ => simp [ownFaults] at h

theorem mem_unlessInteger_iff {node : String} {c : Expr} :
    f ∈ unlessInteger node c ↔
      c.isLeaf = false ∧ f = .typeMismatch node "integer" "boolean" := by
  cases h : c.isLeaf <;> simp [unlessInteger, isBoolean_eq_not_isLeaf, h]

theorem mem_unlessBoolean_iff {node : String} {c : Expr} :
    f ∈ unlessBoolean node c ↔
      c.isLeaf = true ∧ f = .typeMismatch node "boolean" "integer" := by
  cases h : c.isLeaf <;> simp [unlessBoolean, h]

/-- An operand without faults that does not fit into its node is a cause. -/
theorem hasCause_of_mem_mismatch {c : Expr} (hc : c ∈ e.args) (hfaults : c.faults s = [])
    (h : f ∈ e.mismatch c) : e.HasCause s f := by
  have hcombinator {name : String} (hname : e.combinator? = some name) : e.HasCause s f := by
    rw [mismatch_of_combinator? hname, mem_unlessBoolean_iff] at h
    obtain ⟨hleaf, rfl⟩ := h
    have hint := (outcome_eq_int_iff s).mpr ⟨hfaults, hleaf, rfl⟩
    exact .combinator (mem_preorder_self e) hname hc hint
  cases e with
  | constant n => simp [args] at hc
  | timePoint p => simp [args] at hc
  | relation k a b delay =>
      rw [mismatch_relation, mem_unlessInteger_iff] at h
      obtain ⟨hleaf, rfl⟩ := h
      have hbool := (outcome_eq_bool_iff s).mpr ⟨hfaults, hleaf, rfl⟩
      have hr := mem_relations_self ⟨k, a, b, delay⟩
      cases k with
      | precedence => exact .precedence hr rfl hc hbool
      | synchronization => exact .synchronization hr rfl hc hbool
  | not a => exact hcombinator rfl
  | and cs => exact hcombinator rfl
  | or cs => exact hcombinator rfl

/-- The first fault has a cause: everything before it in the walk was in order. -/
theorem hasCause_of_head?_faults (h : (e.faults s).head? = some f) : e.HasCause s f := by
  induction e using inductionOn with
  | step e ih =>
      rw [faults_eq, List.head?_append, Option.or_eq_some_iff, List.head?_flatMap] at h
      rcases h with hown | ⟨_, hargs⟩
      · exact hasCause_of_mem_ownFaults (List.mem_of_head? hown)
      · obtain ⟨c, hc, hhead⟩ := List.exists_of_findSome?_eq_some hargs
        rw [List.head?_append, Option.or_eq_some_iff, List.head?_eq_none_iff] at hhead
        rcases hhead with hbelow | ⟨hnil, hmismatch⟩
        · exact (ih c hc hbelow).of_mem_args hc
        · exact hasCause_of_mem_mismatch hc hnil (List.mem_of_head? hmismatch)

theorem hasCause_of_outcome_eq_error (h : (e.evaluate s).outcome = .error f) : e.HasCause s f :=
  hasCause_of_head?_faults ((outcome_eq_error_iff s).mp h)

/-- Exactly constants and points with instants evaluate to integers. -/
theorem exists_outcome_eq_int_iff :
    (∃ n, (e.evaluate s).outcome = .ok (.int n)) ↔
      (∃ n, e = constant n) ∨ ∃ p, e = timePoint p ∧ s.get? p ≠ none := by
  simp only [outcome_eq_int_iff]
  rw [faults_eq_nil_iff_args]
  cases e with
  | constant n => simp [ownFaults, args, isLeaf]
  | timePoint p => cases hp : s.get? p <;> simp [ownFaults, args, isLeaf, hp]
  | _ => simp [isLeaf]

theorem outcome_isSatisfied_eq_ok_iff {b : Bool} :
    (e.isSatisfied s).outcome = .ok b ↔ (e.evaluate s).outcome = .ok (.bool b) := by
  rw [isSatisfied, Traced.outcome_bind]
  rcases (e.evaluate s).outcome with fault | n | b'
  · simp
  · simp [Traced.fail]
  · simp [Traced.pure_eq]

theorem outcome_isSatisfied_eq_error_iff :
    (e.isSatisfied s).outcome = .error f ↔
      (e.evaluate s).outcome = .error f ∨
        (∃ n, (e.evaluate s).outcome = .ok (.int n)) ∧
          f = .typeMismatch "expression" "boolean" "integer" := by
  rw [isSatisfied, Traced.outcome_bind]
  rcases (e.evaluate s).outcome with fault | n | b
  · simp
  · simp [Traced.fail, eq_comm]
  · simp [Traced.pure_eq]

/-- Asking for a truth value adds one fault, the one of an integer as the whole expression.
All other faults come from an evaluation, and what they tell is wrong in the expression. -/
theorem isSatisfied_and_fault_causes (s : Schedule) (e : Expr) :
    (∀ b, (e.isSatisfied s).outcome = .ok b ↔ (e.evaluate s).outcome = .ok (.bool b)) ∧
      ((e.isSatisfied s).outcome = .error (.typeMismatch "expression" "boolean" "integer") ↔
        ∃ n, (e.evaluate s).outcome = .ok (.int n)) ∧
      ((∃ n, (e.evaluate s).outcome = .ok (.int n)) ↔
        (∃ n, e = constant n) ∨ ∃ p, e = timePoint p ∧ s.get? p ≠ none) ∧
      ∀ f, (e.evaluate s).outcome = .error f →
        (e.isSatisfied s).outcome = .error f ∧ e.HasCause s f ∧
          (∀ expected found, f ≠ .arityMismatch expected found) ∧
          ∀ expected found, f ≠ .typeMismatch "expression" expected found := by
  refine ⟨?_, ?_, exists_outcome_eq_int_iff, ?_⟩
  · intro b
    exact outcome_isSatisfied_eq_ok_iff
  · rw [outcome_isSatisfied_eq_error_iff, and_iff_left rfl, or_iff_right]
    intro h
    exact (hasCause_of_outcome_eq_error h).ne_typeMismatch_expression "boolean" "integer" rfl
  · intro f h
    have hcause := hasCause_of_outcome_eq_error h
    refine ⟨outcome_isSatisfied_eq_error_iff.mpr (Or.inl h), hcause, ?_, ?_⟩
    · exact hcause.ne_arityMismatch
    · exact hcause.ne_typeMismatch_expression

end Expr

end SchedulingLogic

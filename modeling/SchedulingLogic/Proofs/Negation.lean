import SchedulingLogic.Proofs.Operands

/-!
# Negation

A negated conjunction evaluates like the disjunction of the negated operands, and a negated
disjunction like the conjunction of them: same value, same comparisons in the same order, and
the same fault.  Only an operand that is an integer is refused by another node, since each of
the negations looks at its own operand.  Negating a boolean expression twice changes nothing.
-/

namespace SchedulingLogic

namespace Expr

open Visit

variable {s : Schedule} {e : Expr}

theorem faults_not (c : Expr) : (not c).faults s = c.faults s ++ unlessBoolean "Not" c := by
  rw [faults_eq]
  simp [ownFaults, args, mismatch]

theorem unlessBoolean_not (node : String) (c : Expr) : unlessBoolean node (not c) = [] := rfl

theorem walk_not_of_isBoolean (h : e.isBoolean = true) : (not e).walk s = e.walk s := by
  have hleaf : e.isLeaf = false := by simpa [isBoolean_eq_not_isLeaf] using h
  rw [walk_not, unlessBoolean_eq_nil_iff.mpr hleaf, List.map_nil, List.append_nil]

theorem faults_not_of_isBoolean (h : e.isBoolean = true) : (not e).faults s = e.faults s := by
  rw [← filterMap_fault?_walk, walk_not_of_isBoolean h, filterMap_fault?_walk]

theorem hasTruth_not_iff {c : Expr} : (not c).HasTruth s ↔ c.HasTruth s := by
  rw [hasTruth_iff, hasTruth_iff, faults_not, List.append_eq_nil_iff, unlessBoolean_eq_nil_iff]
  exact and_iff_left rfl

/-- A combinator only learns from a negation whether the operand below has a truth value. -/
theorem stop?_not (node : String) (c : Expr) :
    (not c).stop? s "boolean" node = c.stop? s "boolean" "Not" := by
  rw [stop?_boolean, stop?_boolean, faults_not, unlessBoolean_not, List.append_nil]

theorem walk_of_combinator? {name : String} (h : e.combinator? = some name) :
    e.walk s = e.args.flatMap fun c => c.walk s ++ (unlessBoolean name c).map .fault := by
  cases e <;> simp_all [combinator?, walk_not, walk_and, walk_or, args]

/-- The relations done before the first fault do not depend on the node that refuses a value. -/
theorem completed_operands (m n : String) (cs : List Expr) :
    completed (cs.flatMap fun c => c.walk s ++ (unlessBoolean m c).map .fault) =
      completed (cs.flatMap fun c => c.walk s ++ (unlessBoolean n c).map .fault) := by
  induction cs with
  | nil => rfl
  | cons c cs ih =>
      simp only [List.flatMap_cons, List.append_assoc]
      apply completed_append_congr
      cases hleaf : c.isLeaf with
      | true => simp [unlessBoolean, hleaf, completed]
      | false => simpa [unlessBoolean, hleaf] using ih

theorem evaluate_not_not (h : e.isBoolean = true) :
    (not (not e)).evaluate s = e.evaluate s := by
  have hwalk : (not (not e)).walk s = e.walk s :=
    (walk_not_of_isBoolean rfl).trans (walk_not_of_isBoolean h)
  have hvalue : (not (not e)).value s = e.value s := by
    rw [value_of_isBoolean s rfl, value_of_isBoolean s h, truth_not, truth_not, Bool.not_not]
  rw [evaluate, evaluate, run_eq_replay, run_eq_replay s e, hwalk, hvalue]

/-- The combinator `d` takes the operands of the combinator `e` negated and has the opposite
truth value. -/
structure IsDual (e d : Expr) : Prop where
  exists_name : ∃ n, d.combinator? = some n
  args_eq : d.args = e.args.map not
  truth_eq : ∀ s, d.truth s = !e.truth s

theorem isDual_and (cs : List Expr) : IsDual (and cs) (or (cs.map not)) where
  exists_name := ⟨"Or", rfl⟩
  args_eq := rfl
  truth_eq s := by
    rw [truth_or, truth_and, List.any_map, List.not_all_eq_any_not]
    congr 1
    funext c
    exact truth_not s c

theorem isDual_or (cs : List Expr) : IsDual (or cs) (and (cs.map not)) where
  exists_name := ⟨"And", rfl⟩
  args_eq := rfl
  truth_eq s := by
    rw [truth_and, truth_or, List.all_map, List.not_any_eq_all_not]
    congr 1
    funext c
    exact truth_not s c

variable {d : Expr} {m : String}

theorem IsDual.outcome_eq_ok_iff (h : IsDual e d) (he : e.combinator? = some m) (v : Value) :
    ((not e).evaluate s).outcome = .ok v ↔ (d.evaluate s).outcome = .ok v := by
  obtain ⟨n, hd⟩ := h.exists_name
  have hfaults : (not e).faults s = [] ↔ d.faults s = [] := by
    rw [faults_not_of_isBoolean (isBoolean_of_combinator? he),
      faults_eq_nil_iff_of_combinator? he, faults_eq_nil_iff_of_combinator? hd, h.args_eq,
      List.forall_mem_map]
    simp only [hasTruth_not_iff]
  have htruth : (not e).truth s = d.truth s := (truth_not s e).trans (h.truth_eq s).symm
  exact outcome_eq_ok_congr s rfl (isBoolean_of_combinator? hd) hfaults htruth v

theorem IsDual.agreeUpToNode (h : IsDual e d) (he : e.combinator? = some m) :
    AgreeUpToNode s "boolean" m "Not" e.args ((not e).evaluate s) (d.evaluate s) := by
  apply AgreeUpToNode.of_findSome? (h.outcome_eq_ok_iff he)
  · intro f
    rw [outcome_eq_error_iff, faults_not_of_isBoolean (isBoolean_of_combinator? he),
      ← outcome_eq_error_iff, outcome_eq_error_iff_of_combinator? he]
  · intro g
    obtain ⟨n, hd⟩ := h.exists_name
    have hstop : stop? s "boolean" n ∘ not = stop? s "boolean" "Not" := by
      funext c
      exact stop?_not n c
    rw [outcome_eq_error_iff_of_combinator? hd, h.args_eq, List.findSome?_map, hstop]

theorem IsDual.events_run (h : IsDual e d) (he : e.combinator? = some m) :
    ((not e).run s).events = (d.run s).events := by
  obtain ⟨n, hd⟩ := h.exists_name
  have hwalk : d.walk s =
      e.args.flatMap fun c => c.walk s ++ (unlessBoolean "Not" c).map .fault := by
    rw [walk_of_combinator? hd, h.args_eq, List.flatMap_map]
    simp only [walk_not, unlessBoolean_not, List.map_nil, List.append_nil]
  rw [Expr.events_run, Expr.events_run, walk_not_of_isBoolean (isBoolean_of_combinator? he),
    walk_of_combinator? he, hwalk, completed_operands m "Not"]

theorem IsDual.traces_evaluate (h : IsDual e d) (he : e.combinator? = some m) :
    ((not e).evaluate s).events.filter (fun event => event.level = "TRACE") =
      (d.evaluate s).events.filter fun event => event.level = "TRACE" := by
  rw [Expr.traces_evaluate, Expr.traces_evaluate, h.events_run he]

/-- The laws of De Morgan and of double negation, with faults and with the comparisons that
are recorded on the way. -/
theorem evaluate_deMorgan (s : Schedule) (cs : List Expr) :
    (AgreeUpToNode s "boolean" "And" "Not" cs ((~~~(and cs)).evaluate s)
          ((or (cs.map (~~~·))).evaluate s) ∧
        ((~~~(and cs)).evaluate s).events.filter (fun event => event.level = "TRACE") =
          ((or (cs.map (~~~·))).evaluate s).events.filter fun event => event.level = "TRACE") ∧
      (AgreeUpToNode s "boolean" "Or" "Not" cs ((~~~(or cs)).evaluate s)
          ((and (cs.map (~~~·))).evaluate s) ∧
        ((~~~(or cs)).evaluate s).events.filter (fun event => event.level = "TRACE") =
          ((and (cs.map (~~~·))).evaluate s).events.filter fun event => event.level = "TRACE") ∧
      ∀ e : Expr, e.isBoolean = true → (~~~(~~~e)).evaluate s = e.evaluate s := by
  refine ⟨⟨?_, ?_⟩, ⟨?_, ?_⟩, ?_⟩
  · exact (isDual_and cs).agreeUpToNode rfl
  · exact (isDual_and cs).traces_evaluate rfl
  · exact (isDual_or cs).agreeUpToNode rfl
  · exact (isDual_or cs).traces_evaluate rfl
  · intro e he
    exact evaluate_not_not he

/-- An integer among the operands is refused by the conjunction or by its own negation, after
the same comparison.  The point without an instant behind it is not looked at. -/
theorem evaluate_deMorgan_refused_operand :
    let x : TimePoint := ⟨"x", "x", .start⟩
    let s : Schedule := (Schedule.empty.set x 4).2
    let cs : List Expr := [relation .precedence x (constant 5) 1, x,
      timePoint ⟨"y", "y", .finish⟩]
    ((~~~(and cs)).evaluate s).outcome = .error (.typeMismatch "And" "boolean" "integer") ∧
      ((or (cs.map (~~~·))).evaluate s).outcome =
        .error (.typeMismatch "Not" "boolean" "integer") ∧
      ((~~~(and cs)).evaluate s).events.filter (fun event => event.level = "TRACE") =
        [.compared .precedence 4 5 1 true] ∧
      ((or (cs.map (~~~·))).evaluate s).events.filter (fun event => event.level = "TRACE") =
        [.compared .precedence 4 5 1 true] ∧
      (and cs).isBoolean = true ∧ (~~~(~~~(and cs))).evaluate s = (and cs).evaluate s := by
  intro x s cs
  obtain ⟨⟨_, htraces⟩, _, hnot⟩ := evaluate_deMorgan s cs
  have hrecorded : ((~~~(and cs)).evaluate s).events.filter (fun event => event.level = "TRACE") =
      [.compared .precedence 4 5 1 true] := by decide
  exact ⟨by decide, by decide, hrecorded, htraces ▸ hrecorded, rfl, hnot (and cs) rfl⟩

end Expr

end SchedulingLogic

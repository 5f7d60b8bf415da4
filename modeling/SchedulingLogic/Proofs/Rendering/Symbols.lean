import SchedulingLogic.Proofs.Rendering.Words
import SchedulingLogic.Proofs.Substitution

/-!
# Names for intervals

Symbols are looked up under the ids of intervals, wherever a point occurs and in either style.
Writing an expression with symbols is writing it without any when its points have taken on the
names first.  So only the symbols for intervals that occur can be seen.
-/

namespace SchedulingLogic

namespace TimePoint

/-- The point with the name of its interval as its label, if the symbols have one. -/
def rename (symbols : Symbols) (p : TimePoint) : TimePoint :=
  match symbols.lookup p.interval with
  | some name => p.relabel name
  | none => p

theorem render_rename (symbols : Symbols) (p : TimePoint) :
    p.render symbols = (p.rename symbols).render [] := by
  rw [render, rename]
  cases symbols.lookup p.interval <;> rfl

end TimePoint

namespace Expr

variable {f : TimePoint → TimePoint} {verbose : Bool} {symbols symbols' : Symbols} {e : Expr}

theorem isLeaf_mapPoints (f : TimePoint → TimePoint) (e : Expr) :
    (e.mapPoints f).isLeaf = e.isLeaf := by
  cases e <;> rfl

theorem mapPoints_eq_replacePoints (f : TimePoint → TimePoint) (e : Expr) :
    e.mapPoints f = e.replacePoints fun p => timePoint (f p) := by
  induction e using inductionOn with
  | step e ih =>
      cases e with
      | constant n => rfl
      | timePoint p => rfl
      | relation k a b delay =>
          rw [mapPoints, replacePoints, ih a (by simp [args]), ih b (by simp [args])]
      | not a => rw [mapPoints, replacePoints, ih a (by simp [args])]
      | and cs =>
          rw [mapPoints_and, replacePoints_and]
          exact congrArg and (List.map_congr_left ih)
      | or cs =>
          rw [mapPoints_or, replacePoints_or]
          exact congrArg or (List.map_congr_left ih)

theorem mapPoints_id (e : Expr) : e.mapPoints id = e := by
  rw [mapPoints_eq_replacePoints]
  exact replacePoints_timePoint e

theorem combine_map (name : String) {cs : List Expr}
    (h : ∀ c ∈ cs, c.render ⟨verbose, symbols⟩ = (c.mapPoints f).render ⟨verbose, symbols'⟩) :
    combine ⟨verbose, symbols⟩ name (renderEach ⟨verbose, symbols⟩ cs) =
      combine ⟨verbose, symbols'⟩ name
        (renderEach ⟨verbose, symbols'⟩ (cs.map (mapPoints f))) := by
  have htexts : renderEach ⟨verbose, symbols⟩ cs =
      renderEach ⟨verbose, symbols'⟩ (cs.map (mapPoints f)) := by
    rw [renderEach_eq_map, renderEach_eq_map, List.map_map]
    apply List.map_congr_left
    intro c hc
    simp only [Function.comp_apply, parenthesize, isLeaf_mapPoints, h c hc]
  rw [htexts]
  rfl

/-- If the points are written alike, then so is the whole expression. -/
theorem render_mapPoints
    (h : ∀ p ∈ e.timePoints, p.render symbols = (f p).render symbols') :
    e.render ⟨verbose, symbols⟩ = (e.mapPoints f).render ⟨verbose, symbols'⟩ := by
  induction e using inductionOn with
  | step e ih =>
      have hargs : ∀ c ∈ e.args,
          c.render ⟨verbose, symbols⟩ = (c.mapPoints f).render ⟨verbose, symbols'⟩ := by
        intro c hc
        exact ih c hc fun p hp => h p (mem_timePoints_of_mem_args hc hp)
      cases e with
      | constant n => rfl
      | timePoint p => exact h p (mem_timePoints_self p)
      | relation k a b delay =>
          rw [mapPoints, render, render, hargs a (by simp [args]), hargs b (by simp [args])]
      | not a =>
          rw [mapPoints, render, render, hargs a (by simp [args]), parenthesize, parenthesize,
            isLeaf_mapPoints]
      | and cs =>
          rw [mapPoints_and, render, render]
          exact combine_map "and" hargs
      | or cs =>
          rw [mapPoints_or, render, render]
          exact combine_map "or" hargs

/-- Each point under the name of its interval, if the symbols have one. -/
def rename (symbols : Symbols) (e : Expr) : Expr := e.mapPoints (TimePoint.rename symbols)

/-- Symbols do no more than renaming the points, and those for other intervals do nothing. -/
theorem render_symbols (verbose : Bool) (symbols : Symbols) (e : Expr) :
    e.render ⟨verbose, symbols⟩ = (e.rename symbols).render ⟨verbose, []⟩ ∧
      ∀ symbols' : Symbols,
        (∀ p ∈ e.timePoints, symbols.lookup p.interval = symbols'.lookup p.interval) →
          e.render ⟨verbose, symbols⟩ = e.render ⟨verbose, symbols'⟩ := by
  constructor
  · apply render_mapPoints
    intro p _
    exact TimePoint.render_rename symbols p
  · intro symbols' h
    have hpoints : ∀ p ∈ e.timePoints, p.render symbols = (id p).render symbols' := by
      intro p hp
      rw [id, TimePoint.render, TimePoint.render, h p hp]
    rw [render_mapPoints hpoints, mapPoints_id]

/-- An entry for a label that is no id has no effect, nor has a second entry for an id. -/
theorem render_symbols_other_entries :
    let x : TimePoint := ⟨"iv-x", "x", .finish⟩
    let y : TimePoint := ⟨"iv-y", "y", .start⟩
    let e : Expr := not (or [relation .precedence x y (-2), and [timePoint (x.relabel "z")]])
    let symbols : Symbols := [("iv-x", "setup"), ("y", "unused")]
    let symbols' : Symbols := [("z", "other"), ("iv-x", "setup"), ("iv-x", "later")]
    (∀ p ∈ e.timePoints, symbols.lookup p.interval = symbols'.lookup p.interval) ∧
      e.render ⟨false, symbols⟩ =
        "~((setup.end_time - 2 <= y.start_time) or (setup.end_time))" ∧
      e.render ⟨false, symbols⟩ = e.render ⟨false, symbols'⟩ := by
  intro x y e symbols symbols'
  have hagree : ∀ p ∈ e.timePoints, symbols.lookup p.interval = symbols'.lookup p.interval := by
    decide
  exact ⟨hagree, by decide, (render_symbols false symbols e).2 symbols' hagree⟩

end Expr

end SchedulingLogic

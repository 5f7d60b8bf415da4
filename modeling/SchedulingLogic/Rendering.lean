import SchedulingLogic.Relation.Basic

/-!
# Rendering

The plain style writes combinators between their operands and puts every operand
that is not a leaf in parentheses.  The verbose style writes combinators as functions.
Relations are written alike in both.
-/

namespace SchedulingLogic

/-- Names for intervals, by id.  The first entry for an id counts. -/
abbrev Symbols := List (String × String)

structure Style where
  verbose : Bool := false
  symbols : Symbols := []

namespace TimePoint

/-- The point under the name that `symbols` gives its interval, or else its own label. -/
def render (symbols : Symbols) (p : TimePoint) : String :=
  match symbols.lookup p.interval with
  | some name => p.textAs name
  | none => p.text

end TimePoint

namespace Expr

def parenthesize (e : Expr) (text : String) : String :=
  if e.isLeaf then text else "(" ++ text ++ ")"

/-- A combinator over the texts of its operands. -/
def combine (style : Style) (name : String) (texts : List String) : String :=
  if style.verbose then name ++ "(" ++ String.intercalate ", " texts ++ ")"
  else String.intercalate (" " ++ name ++ " ") texts

mutual

def render (style : Style) : Expr → String
  | constant n => decimal n
  | timePoint p => p.render style.symbols
  | relation k a b delay => k.phrase delay (render style a) (render style b)
  | not a =>
      if style.verbose then "not(" ++ render style a ++ ")"
      else "~" ++ parenthesize a (render style a)
  | and cs => combine style "and" (renderEach style cs)
  | or cs => combine style "or" (renderEach style cs)

def renderEach (style : Style) : List Expr → List String
  | [] => []
  | c :: cs =>
      (if style.verbose then render style c else parenthesize c (render style c)) ::
        renderEach style cs

end

def text (e : Expr) : String := e.render {}

theorem renderEach_eq_map (style : Style) (cs : List Expr) :
    renderEach style cs = cs.map fun c =>
      if style.verbose then c.render style else parenthesize c (c.render style) := by
  induction cs with
  | nil => rfl
  | cons c cs ih => simp [renderEach, ih]

end Expr

namespace Relation

def render (style : Style) (r : Relation) : String :=
  r.phrase (r.first.render style) (r.second.render style)

def text (r : Relation) : String := r.render {}

theorem render_toExpr (style : Style) (r : Relation) : r.toExpr.render style = r.render style := by
  simp [toExpr, Expr.render, render, phrase]

end Relation

end SchedulingLogic

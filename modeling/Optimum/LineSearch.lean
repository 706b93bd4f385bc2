import Optimum.Bracket
import Optimum.Problem

/-!
# Line search

The objective along a direction, minimised over step lengths from zero to one.  Brent's search
looks at the inside of the interval; one evaluation is kept back for the full step, and the
value at no step is known.  An end is taken only if it is strictly better than the inside.
-/

namespace Optimum

open Scalar

variable {α : Type}

/-- The outcome of a line search. -/
structure Step (α : Type) where
  /-- The step length. -/
  alpha : α
  /-- The objective after the step. -/
  f : α
  /-- Whether the step length is from the inside of the interval. -/
  bracketed : Bool

/-- What a search over an interval notes down when it ends. -/
def Found.notes (found : Found α) : List (Note α) :=
  (if found.stopped then [.searchStopped found.evaluations] else []) ++
    [.searchDone found.best.x found.best.f found.evaluations]

variable [Scalar α]

/-- The best of: a point inside the interval, the value at no step, the value at the full step.
The inside wins a tie with either end, and no step a tie with the full step. -/
def Step.choose (inside : Sample α) (f₀ f₁ : α) : Step α :=
  let step : Step α := ⟨inside.x, inside.f, true⟩
  let step : Step α := if f₀ < step.f then ⟨0, f₀, false⟩ else step
  if f₁ < step.f then ⟨1, f₁, false⟩ else step

namespace Run

/-- The objective at parameter `t` of the line through `x` along `s`, which must be finite. -/
def alongLine (x s : Vec α) (t : α) : Run α α := do
  let v ← objective (x.along s t)
  if isFinite v then pure v else throw (.nonFiniteValue .searchDirection)

/-- The best step from `x` along `s`, where `f₀` is the objective at `x`. -/
def lineSearch (opt : Options α) (x s : Vec α) (f₀ : α) : Run α (Step α) := do
  let found ← (boundedBrent 0 1 opt.lineTol (opt.lineMaxFev - 1)).run (alongLine x s)
  found.notes.forM note
  let f₁ ← alongLine x s 1
  let step := Step.choose found.best f₀ f₁
  unless step.bracketed do note (.notBracketed step.alpha)
  pure step

end Run

end Optimum

import Optimum.LineSearch

/-!
# Descent

The iteration that the descent methods share.  A method is a `Strategy`: it chooses a direction
at each iterate and learns from the step taken.  An iteration searches along that direction,
evaluates objective and gradient at the point found, and applies the exit tests.

The loop (`Run.descend`) recurses on the number of iterations still allowed.
-/

namespace Optimum

open Scalar

/-- A point with the objective and the gradient estimate there. -/
structure Iterate (α : Type) where
  /-- The point. -/
  x : Vec α
  /-- The objective. -/
  f : α
  /-- The gradient estimate. -/
  g : Vec α

/-- The result of a run. -/
structure Solution (α : Type) where
  /-- The final point. -/
  x : Vec α
  /-- The objective there. -/
  f : α
  /-- Why the run stopped. -/
  exitFlag : ExitFlag
  /-- The number of iterations made. -/
  iterations : Nat

/-- A method of descent, with the memory `S` that it carries from one iterate to the next. -/
structure Strategy (α S : Type) where
  /-- The direction at an iterate, of any length, and the memory after choosing it.  Iterations
  count from zero. -/
  direction : Nat → Iterate α → S → Vec α × S
  /-- The memory after a step from one iterate to the next, if the run goes on. -/
  absorb : Iterate α → Iterate α → S → Run α S

/-- What an iteration of a method did. -/
structure Iteration (α S : Type) where
  /-- The direction that the method chose. -/
  direction : Vec α
  /-- The step that the line search took along it. -/
  step : Step α
  /-- The iterate that the step leads to. -/
  next : Iterate α
  /-- The memory of the method after choosing the direction. -/
  memory : S
  /-- What the monitor was told. -/
  progress : Progress α

variable {α : Type} [Scalar α]

namespace Run

/-! ### Evaluation -/

/-- The objective at a point, which must be finite. -/
def finiteObjective (x : Vec α) : Run α α := do
  let v ← objective x
  if isFinite v then pure v else throw (.nonFiniteValue .objective)

/-- The gradient estimate at a point, which must have an element for each coordinate, all
finite. -/
def finiteGradient (x : Vec α) (h : α) : Run α (Vec α) := do
  let g ← gradient x h
  if g.length ≠ x.length then throw (.dimensionMismatch .gradient x.length g.length)
  else if ¬ Scalar.allFinite g then throw (.nonFiniteValue .gradient)
  else pure g

/-- The iterate at a point. -/
def iterate (x : Vec α) (h : α) : Run α (Iterate α) := do
  let f ← finiteObjective x
  let g ← finiteGradient x h
  pure ⟨x, f, g⟩

/-! ### The loop -/

/-- A step from an iterate along `s`, and the iterate that it leads to. -/
def stepAlong (opt : Options α) (it : Iterate α) (s : Vec α) : Run α (Step α × Iterate α) := do
  let step ← lineSearch opt it.x s it.f
  let next ← iterate (it.x.along s step.alpha) opt.fdStep
  pure (step, next)

/-- Iteration number `k` from an iterate: direction, step, and the messages about them. -/
def iteration {S : Type} (strategy : Strategy α S) (opt : Options α) (k : Nat) (it : Iterate α)
    (memory : S) : Run α (Iteration α S) := do
  let (direction, memory) := strategy.direction k it memory
  let (step, next) ← stepAlong opt it direction.normalize
  let p : Progress α :=
    ⟨k + 1, next.f, Vec.norm next.g, Vec.distance next.x it.x, step.alpha⟩
  note (.iteration p)
  progress p
  pure ⟨direction, step, next, memory, p⟩

/-- Notes that a run stopped after an iteration, and gives its result. -/
def finish {S : Type} (i : Iteration α S) (flag : ExitFlag) : Run α (Solution α) := do
  note (.exit flag i.progress.iteration)
  pure ⟨i.next.x, i.next.f, flag, i.progress.iteration⟩

/-- The iterations from iterate number `k` on, with at most `left` more after the first.  When
none is left the budget is spent, whatever the tolerances say. -/
def descend {S : Type} (strategy : Strategy α S) (opt : Options α) :
    (left k : Nat) → Iterate α → S → Run α (Solution α)
  | left, k, it, memory => do
    let i ← iteration strategy opt k it memory
    match left with
    | 0 => finish i .maxIterations
    | left + 1 =>
      let change := magnitude (i.next.f - it.f)
      match opt.toleranceMet i.progress.gradNorm i.progress.stepSize change with
      | some flag => finish i flag
      | none => do
        let memory ← strategy.absorb it i.next i.memory
        descend strategy opt left (k + 1) i.next memory

/-- A run of a method from a starting point. -/
def minimize {S : Type} (strategy : Strategy α S) (memory : S) (opt : Options α) (x₀ : Vec α) :
    Run α (Solution α) := do
  opt.validate
  if x₀.isEmpty then throw .emptyDesignVector
  let it ← iterate x₀ opt.fdStep
  descend strategy opt (opt.maxIt - 1) 0 it memory

end Run

end Optimum

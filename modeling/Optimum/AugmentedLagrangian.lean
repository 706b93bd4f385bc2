import Optimum.Lagrangian
import Optimum.Methods

/-!
# The augmented Lagrangian method

Minimises an objective under constraints `g(x) ≤ 0` and `h(x) = 0`.  An outer iteration
minimises the augmented Lagrangian for the current multipliers by a quasi-Newton run, then
moves the multipliers by `rho` times the residuals found there.  The penalty parameter stays
fixed.

The exit tests use the gradient of the Lagrangian with the new multipliers, and measure step
and change on the objective itself.
-/

namespace Optimum

open Scalar

variable {α : Type}

/-- An outer iterate. -/
structure OuterIterate (α : Type) where
  /-- The point. -/
  x : Vec α
  /-- The objective there, without multipliers. -/
  f : α
  /-- The multipliers. -/
  multipliers : Multipliers α

/-- What an outer iteration did. -/
structure OuterIteration (α : Type) where
  /-- The result of the inner run. -/
  inner : Solution α
  /-- The residuals where the inner run ended. -/
  residuals : Residuals α
  /-- The gradient there, of the Lagrangian with the new multipliers. -/
  gradient : Vec α
  /-- The next iterate. -/
  next : OuterIterate α
  /-- What the monitor was told. -/
  progress : Progress α

variable [Scalar α]

namespace Run

/-- The residuals at a point, of which there must be one for each multiplier, all finite. -/
def checkedConstraints (x : Vec α) (lam : Multipliers α) : Run α (Residuals α) := do
  let r ← constraints x
  r.check lam.ineq.length lam.eq.length
  pure r

/-- The residuals at the starting point, all finite.  Their numbers are those of the problem. -/
def initialConstraints (x : Vec α) : Run α (Residuals α) := do
  let r ← constraints x
  r.checkFinite
  pure r

/-- The inner run, which minimises the Lagrangian for the multipliers of an iterate. -/
def innerRun (lagOpt : LagrangianOptions α) (it : OuterIterate α) : Run α (Solution α) :=
  under ⟨it.multipliers, lagOpt.rho⟩ (quasiNewton lagOpt.inner it.x)

/-- Outer iteration number `k` from an iterate: the inner run, the residuals where it ends, the
new multipliers, gradient and objective there, and the messages about them.  The step is always
taken in full. -/
def outerIteration (opt : Options α) (lagOpt : LagrangianOptions α) (k : Nat)
    (it : OuterIterate α) : Run α (OuterIteration α) := do
  let inner ← innerRun lagOpt it
  let r ← checkedConstraints inner.x it.multipliers
  let lam := it.multipliers.update lagOpt.rho r
  let g ← under ⟨lam, lagOpt.rho⟩ (finiteGradient inner.x opt.fdStep)
  let f ← finiteObjective inner.x
  let p : Progress α := ⟨k + 1, f, Vec.norm g, Vec.distance inner.x it.x, 1⟩
  note (.outer p.iteration f r.maxViolation p.gradNorm inner.exitFlag inner.iterations)
  progress p
  pure ⟨inner, r, g, ⟨inner.x, f, lam⟩, p⟩

/-- Notes that the outer iterations stopped, and gives their result. -/
def outerFinish (i : OuterIteration α) (flag : ExitFlag) :
    Run α (Solution α × Multipliers α) := do
  note (.outerExit flag i.progress.iteration)
  pure (⟨i.next.x, i.next.f, flag, i.progress.iteration⟩, i.next.multipliers)

/-- The outer iterations from iterate number `k` on, with at most `left` more after the first. -/
def outerDescend (opt : Options α) (lagOpt : LagrangianOptions α) :
    (left k : Nat) → OuterIterate α → Run α (Solution α × Multipliers α)
  | left, k, it => do
    let i ← outerIteration opt lagOpt k it
    match left with
    | 0 => outerFinish i .maxIterations
    | left + 1 =>
      let change := magnitude (i.next.f - it.f)
      match opt.toleranceMet i.progress.gradNorm i.progress.stepSize change with
      | some flag => outerFinish i flag
      | none => outerDescend opt lagOpt left (k + 1) i.next

/-- Minimises the objective under the constraints from `x₀`.  The multipliers start at zero, one
for each residual at `x₀`.  Gives the solution together with the final multipliers. -/
def augmentedLagrangian (opt : Options α) (lagOpt : LagrangianOptions α) (x₀ : Vec α) :
    Run α (Solution α × Multipliers α) := do
  opt.validate
  lagOpt.validate
  if x₀.isEmpty then throw .emptyDesignVector
  let r ← initialConstraints x₀
  let f ← finiteObjective x₀
  outerDescend opt lagOpt (opt.maxIt - 1) 0 ⟨x₀, f, .zeros r.ineq.length r.eq.length⟩

end Run

end Optimum

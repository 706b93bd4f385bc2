import Optimum.Descent

/-!
# Methods of descent

Three strategies for the loop of `Optimum.Descent`.  Steepest descent follows the negative
gradient.  Conjugate gradients add to it a multiple of the last direction.  Quasi-Newton
multiplies it by an approximation of the inverse Hessian, which an update rule corrects after
every step.
-/

namespace Optimum

open Scalar

variable {α : Type} [Scalar α]

namespace Strategy

/-- The negative gradient. -/
def steepest : Strategy α Unit where
  direction _ it _ := (it.g.neg, ())
  absorb _ _ _ := pure ()

/-- A direction, before its length is made one, and the squared norm of the gradient there. -/
structure Conjugate (α : Type) where
  /-- The direction. -/
  s : Vec α
  /-- The squared norm of the gradient. -/
  gg : α

/-- The conjugate direction at gradient `g` on iteration `k`: the negative gradient, to which a
multiple of the last direction is added, unless `k` is a multiple of `n` or the last gradient
vanished. -/
def conjugateTo (n k : Nat) (g : Vec α) (last : Option (Conjugate α)) : Vec α :=
  match last with
  | some last =>
    if k % n ≠ 0 ∧ 0 < last.gg then
      let beta := Vec.dot g g / last.gg
      List.zipWith (fun gi si => -gi + beta * si) g last.s
    else g.neg
  | none => g.neg

/-- Fletcher-Reeves conjugate directions, restarted every `n` iterations. -/
def fletcherReeves (n : Nat) : Strategy α (Option (Conjugate α)) where
  direction k it last :=
    let s := conjugateTo n k it.g last
    (s, some ⟨s, Vec.dot it.g it.g⟩)
  absorb _ _ last := pure last

/-- The negative gradient, multiplied by an approximation of the inverse Hessian.  The update
rule is asked to correct the approximation; an update that it refuses for want of curvature is
skipped. -/
def quasiNewton : Strategy α (Mat α) where
  direction _ it b := ((b.mulVec it.g).neg, b)
  absorb prev next b := do
    let answer : Except (Failure α) (Mat α) ←
      Run.query (.update b (next.x.sub prev.x) (next.g.sub prev.g))
    match answer with
    | .ok db => pure (b.add db)
    | .error (.illConditionedUpdate curvature) => do
      Run.note (.updateSkipped curvature)
      pure b
    | .error failure => throw failure

end Strategy

namespace Run

/-- Minimises the objective from `x₀` by steepest descent. -/
def steepestDescent (opt : Options α) (x₀ : Vec α) : Run α (Solution α) :=
  minimize .steepest () opt x₀

/-- Minimises the objective from `x₀` by Fletcher-Reeves conjugate gradients, restarted along the
negative gradient after as many iterations as `x₀` has coordinates. -/
def conjugateGradient (opt : Options α) (x₀ : Vec α) : Run α (Solution α) :=
  minimize (.fletcherReeves (max x₀.length 1)) none opt x₀

/-- Minimises the objective from `x₀` by a quasi-Newton method that starts from the identity. -/
def quasiNewton (opt : Options α) (x₀ : Vec α) : Run α (Solution α) :=
  minimize .quasiNewton (.identity x₀.length) opt x₀

end Run

end Optimum

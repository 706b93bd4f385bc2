import Optimum.Problem

/-!
# Difference quotients

Two estimators of gradients that evaluate the objective near a point, a coordinate at a time.
The step is used as given: one too small is swamped by rounding, one too large by the
curvature of the objective.
-/

namespace Optimum

open Scalar

variable {α : Type}

namespace Plan

/-- The plan that evaluates the objective at one point. -/
def value (x : Vec α) : Plan α α := Dialogue.query (A := fun _ : Vec α => α) x

/-- The points that differ from `x` in one coordinate, changed by `f`, from the first
coordinate to the last. -/
def perturbed (f : α → α) (x : Vec α) : List (Vec α) := x.mapIdx fun i xi => x.set i (f xi)

@[simp] theorem length_perturbed (f : α → α) (x : Vec α) : (perturbed f x).length = x.length := by
  simp [perturbed]

variable [Scalar α]

/-- The forward differences `(f (x + h eᵢ) - f x) / h`: one evaluation at `x`, then one for
each coordinate. -/
def forward (x : Vec α) (h : α) : Plan α (Vec α) := do
  let f₀ ← value x
  (perturbed (· + h) x).mapM fun forth => do
    let f₁ ← value forth
    pure ((f₁ - f₀) / h)

/-- The central differences `(f (x + h eᵢ) - f (x - h eᵢ)) / 2h`: two evaluations for each
coordinate. -/
def central (x : Vec α) (h : α) : Plan α (Vec α) :=
  ((perturbed (· + h) x).zip (perturbed (· - h) x)).mapM fun (forth, back) => do
    let f₁ ← value forth
    let f₂ ← value back
    pure ((f₁ - f₂) / (2.0 * h))

end Plan

end Optimum

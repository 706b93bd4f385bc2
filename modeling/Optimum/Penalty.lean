import Optimum.Problem

/-!
# Penalties

How far a point is from meeting the constraints, and the exterior penalty transform: an
objective that adds a multiple of the squared violation, so that a constrained problem can be
given to a method that knows no constraints.
-/

namespace Optimum

open Scalar

variable {α : Type} [Scalar α]

/-- The squared violation: the squares of the inequality residuals above zero, and of the equality
residuals. -/
def Residuals.violation (r : Residuals α) : α :=
  total (r.ineq.map fun g => square (excess g)) + total (r.eq.map square)

/-- The largest violation of a single constraint. -/
def Residuals.maxViolation (r : Residuals α) : α := r.ineq.foldl larger (Vec.normInf r.eq)

/-- The penalty transform of an objective `f` under constraints `con`: the value at `x` is
`f x + rho * violation (con x)`.  The constraints are evaluated first. -/
def penalty {m : Type → Type} [Monad m] (f : Vec α → m α) (con : Vec α → m (Residuals α)) (rho : α)
    (x : Vec α) : m α := do
  let r ← con x
  let v ← f x
  pure (v + rho * r.violation)

end Optimum

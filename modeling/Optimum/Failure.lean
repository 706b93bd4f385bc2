/-!
# Failures

Why a run ends without a result.  A failure is a cause: which quantity has the wrong size,
which evaluation was not finite, which option is out of range.  Convergence outcomes are not
failures; they are `ExitFlag`s (`Optimum.Options`).  The wording is in `Optimum.Report`.
-/

namespace Optimum

/-- A quantity whose size is checked. -/
inductive Quantity where
  /-- A gradient estimate, against the design vector. -/
  | gradient
  /-- A change of gradient, against the step that caused it. -/
  | gradientChange
  /-- An approximation of the inverse Hessian, against a step. -/
  | inverseHessian
  /-- The inequality residuals, against the inequality multipliers. -/
  | inequalities
  /-- The equality residuals, against the equality multipliers. -/
  | equalities
  /-- The reference values of a scaling, against the design vector. -/
  | reference
  deriving DecidableEq, Repr

/-- An evaluation whose value is checked to be finite. -/
inductive Evaluation where
  /-- The objective at an iterate. -/
  | objective
  /-- A gradient estimate at an iterate. -/
  | gradient
  /-- The constraint residuals. -/
  | constraints
  /-- The objective at a trial point of a line search. -/
  | searchDirection
  /-- A function that the caller names. -/
  | named (name : String)
  deriving DecidableEq, Repr

/-- The three tolerances of the exit tests. -/
inductive Tolerance where
  /-- The tolerance on the norm of the gradient. -/
  | gradient
  /-- The tolerance on the change of the objective. -/
  | objective
  /-- The tolerance on the length of the step. -/
  | step
  deriving DecidableEq, Repr

/-- An option that is out of range, with its value where the value says more. -/
inductive OptionFault (α : Type) where
  /-- A tolerance is negative or not a number. -/
  | negativeTolerance (which : Tolerance) (value : α)
  /-- No iteration is allowed. -/
  | noIterations
  /-- The step of the difference quotients is not positive and finite. -/
  | differenceStep (value : α)
  /-- The tolerance on the step length is not positive. -/
  | lineTolerance (value : α)
  /-- A line search is allowed fewer than two evaluations. -/
  | lineBudget
  /-- The penalty parameter is not positive and finite. -/
  | penaltyParameter (value : α)
  /-- A reference value of a scaling is zero or not finite. -/
  | referenceValues
  /-- A fault that a caller's update rule describes itself. -/
  | described (text : String)
  deriving DecidableEq, Repr

/-- A failure of a run, or of one of the operations that a run is made of. -/
inductive Failure (α : Type) where
  /-- The initial design vector has no elements. -/
  | emptyDesignVector
  /-- Two sizes that must agree do not. -/
  | dimensionMismatch (what : Quantity) (expected found : Nat)
  /-- An evaluation gave a value that is not finite. -/
  | nonFiniteValue (what : Evaluation)
  /-- An update of the inverse Hessian has too little curvature. -/
  | illConditionedUpdate (curvature : α)
  /-- An option is out of range. -/
  | invalidOptions (fault : OptionFault α)
  deriving DecidableEq, Repr

end Optimum

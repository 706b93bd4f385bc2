import Optimum.Failure
import Optimum.Scalar

/-!
# Options and exit flags

The settings of a run, the faults that make them unusable, and the exit tests made after
every iteration.  A run stops at the first of: the iteration budget is spent, the gradient is
small, the step is small, the objective hardly changed.
-/

namespace Optimum

open Scalar

/-! ### Exit flags -/

/-- The reason a run stopped. -/
inductive ExitFlag where
  /-- The iteration budget is spent. -/
  | maxIterations
  /-- The gradient is within its tolerance. -/
  | gradientTolerance
  /-- The step is within its tolerance. -/
  | stepTolerance
  /-- The change of the objective is within its tolerance. -/
  | objectiveTolerance
  deriving DecidableEq, Repr

/-- The number of a flag, in the order in which the tests are made. -/
def ExitFlag.code : ExitFlag → Nat
  | maxIterations => 0
  | gradientTolerance => 1
  | stepTolerance => 2
  | objectiveTolerance => 3

/-- A run has converged unless its budget ran out. -/
def ExitFlag.converged (flag : ExitFlag) : Bool := flag ≠ maxIterations

/-! ### Options of a descent -/

/-- The settings of a run of one of the descent methods. -/
structure Options (α : Type) where
  /-- The norm of the gradient at or below which a run stops. -/
  gradTol : α
  /-- The absolute change of the objective at or below which a run stops. -/
  deltaFTol : α
  /-- The length of a step at or below which a run stops. -/
  deltaXTol : α
  /-- The largest number of iterations. -/
  maxIt : Nat
  /-- The step of the difference quotients that estimate gradients. -/
  fdStep : α
  /-- The absolute tolerance on the step length that a line search finds. -/
  lineTol : α
  /-- The largest number of evaluations of one line search, the one at the full step included. -/
  lineMaxFev : Nat
  deriving Repr

namespace Options

variable {α : Type} [Scalar α]

/-- The settings used where the caller states none. -/
def default : Options α where
  gradTol := 1e-6
  deltaFTol := 1e-9
  deltaXTol := 1e-9
  maxIt := 200
  fdStep := 1e-8
  lineTol := 1e-10
  lineMaxFev := 500

instance : Inhabited (Options α) := ⟨default⟩

/-- The first fault of the options, looked for in the order: the three tolerances, the
iteration budget, the difference step, the line search's tolerance and its budget.  Each
comparison is the one that a value which is not a number fails. -/
def fault? (opt : Options α) : Option (OptionFault α) :=
  if ¬ 0 ≤ opt.gradTol then some (.negativeTolerance .gradient opt.gradTol)
  else if ¬ 0 ≤ opt.deltaFTol then some (.negativeTolerance .objective opt.deltaFTol)
  else if ¬ 0 ≤ opt.deltaXTol then some (.negativeTolerance .step opt.deltaXTol)
  else if opt.maxIt = 0 then some .noIterations
  else if ¬ (0 < opt.fdStep ∧ isFinite opt.fdStep) then some (.differenceStep opt.fdStep)
  else if ¬ 0 < opt.lineTol then some (.lineTolerance opt.lineTol)
  else if opt.lineMaxFev < 2 then some .lineBudget
  else none

/-- Succeeds on options that a run can use. -/
def validate (opt : Options α) : Except (Failure α) Unit :=
  match opt.fault? with
  | some fault => .error (.invalidOptions fault)
  | none => .ok ()

/-- The first tolerance that is met: of the gradient, the step, the objective. -/
def toleranceMet (opt : Options α) (gradNorm stepNorm deltaF : α) : Option ExitFlag :=
  if gradNorm ≤ opt.gradTol then some .gradientTolerance
  else if stepNorm ≤ opt.deltaXTol then some .stepTolerance
  else if deltaF ≤ opt.deltaFTol then some .objectiveTolerance
  else none

/-- The exit test after the given number of iterations: the budget first, then the tolerances. -/
def exitFlag (opt : Options α) (iterations : Nat) (gradNorm stepNorm deltaF : α) :
    Option ExitFlag :=
  if opt.maxIt ≤ iterations then some .maxIterations
  else opt.toleranceMet gradNorm stepNorm deltaF

theorem validate_eq_ok_iff {opt : Options α} : opt.validate = .ok () ↔ opt.fault? = none := by
  unfold validate
  split <;> simp_all

theorem exitFlag_of_le {opt : Options α} {iterations : Nat} (h : opt.maxIt ≤ iterations)
    (gradNorm stepNorm deltaF : α) :
    opt.exitFlag iterations gradNorm stepNorm deltaF = some .maxIterations := by
  simp [exitFlag, h]

theorem exitFlag_of_lt {opt : Options α} {iterations : Nat} (h : iterations < opt.maxIt)
    (gradNorm stepNorm deltaF : α) :
    opt.exitFlag iterations gradNorm stepNorm deltaF =
      opt.toleranceMet gradNorm stepNorm deltaF := by
  simp [exitFlag, Nat.not_le.mpr h]

end Options

/-! ### Options of the augmented Lagrangian method -/

/-- The further settings of the augmented Lagrangian method. -/
structure LagrangianOptions (α : Type) where
  /-- The penalty parameter, the factor of the squared violation. -/
  rho : α
  /-- The settings of each inner run. -/
  inner : Options α
  deriving Repr

namespace LagrangianOptions

variable {α : Type} [Scalar α]

/-- The settings used where the caller states none. -/
def default : LagrangianOptions α where
  rho := 1
  inner := Options.default

instance : Inhabited (LagrangianOptions α) := ⟨default⟩

/-- The first fault: the penalty parameter before the inner settings. -/
def fault? (opt : LagrangianOptions α) : Option (OptionFault α) :=
  if ¬ (0 < opt.rho ∧ isFinite opt.rho) then some (.penaltyParameter opt.rho)
  else opt.inner.fault?

/-- Succeeds on options that a run can use. -/
def validate (opt : LagrangianOptions α) : Except (Failure α) Unit :=
  match opt.fault? with
  | some fault => .error (.invalidOptions fault)
  | none => .ok ()

end LagrangianOptions

end Optimum

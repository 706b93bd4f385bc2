import Optimum.Decimal.Layout
import Optimum.Problem

/-!
# Reports

The wording of exit flags, failures and log lines.  Values in messages about options and in
notes about step lengths are written positionally, all others with an exponent.
-/

namespace Optimum

open Decimal

/-- The text of an exit flag. -/
def ExitFlag.text : ExitFlag → String
  | maxIterations => "iteration limit reached"
  | gradientTolerance => "gradient tolerance met"
  | stepTolerance => "step tolerance met"
  | objectiveTolerance => "objective tolerance met"

/-- The name of a quantity whose size is checked. -/
def Quantity.text : Quantity → String
  | gradient => "gradient"
  | gradientChange => "gradient change"
  | inverseHessian => "Hessian approximation"
  | inequalities => "inequality constraints"
  | equalities => "equality constraints"
  | reference => "reference vector"

/-- The name of an evaluation that must be finite. -/
def Evaluation.text : Evaluation → String
  | objective => "objective"
  | gradient => "gradient"
  | constraints => "constraints"
  | searchDirection => "objective along search direction"
  | named name => name

/-- The name of the option that sets a tolerance. -/
def Tolerance.text : Tolerance → String
  | gradient => "grad_tol"
  | objective => "delta_f_tol"
  | step => "delta_x_tol"

/-- What is wrong with an option. -/
def OptionFault.text : OptionFault Float → String
  | negativeTolerance which value =>
    which.text ++ " (" ++ plainText value ++ ") must be non-negative"
  | noIterations => "max_it must be at least 1"
  | differenceStep value => "fd_step (" ++ plainText value ++ ") must be positive and finite"
  | lineTolerance value => "line_tol (" ++ plainText value ++ ") must be positive"
  | lineBudget => "line_max_fev must be at least 2"
  | penaltyParameter value => "rho (" ++ plainText value ++ ") must be positive and finite"
  | referenceValues => "reference values must be non-zero and finite"
  | described text => text

/-- The message of a failure. -/
def Failure.message : Failure Float → String
  | emptyDesignVector => "design vector must not be empty"
  | dimensionMismatch what expected found =>
    "dimension mismatch in " ++ what.text ++ ": expected " ++ toString expected ++ ", found " ++
      toString found
  | nonFiniteValue what => "non-finite value from " ++ what.text
  | illConditionedUpdate curvature =>
    "ill-conditioned Hessian update (curvature " ++ scientificText curvature ++ ")"
  | invalidOptions fault => "invalid options: " ++ fault.text

/-- A number right-aligned in a column. -/
def column (width n : Nat) : String :=
  let digits := toString n
  String.ofList (List.replicate (width - digits.length) ' ') ++ digits

/-- The text of a note. -/
def Note.text : Note Float → String
  | searchStopped evaluations =>
    "line search stopped after " ++ toString evaluations ++ " evaluations"
  | searchDone x f evaluations =>
    "brent: x = " ++ scientificText x ++ ", f = " ++ scientificText f ++ ", " ++
      toString evaluations ++ " evaluations"
  | notBracketed alpha => "line search not bracketed, taking alpha = " ++ plainText alpha
  | updateSkipped curvature =>
    "skipping Hessian update, curvature condition violated (" ++ scientificText curvature ++ ")"
  | iteration p =>
    column 4 p.iteration ++ " f = " ++ scientificText p.objective ++ ", |g| = " ++
      scientificText p.gradNorm ++ ", |dx| = " ++ scientificText p.stepSize
  | exit flag iterations => flag.text ++ " after " ++ toString iterations ++ " iterations"
  | outer k objective violation gradNorm inner innerIterations =>
    "outer " ++ column 3 k ++ " f = " ++ scientificText objective ++ ", max violation = " ++
      scientificText violation ++ ", |dL| = " ++ scientificText gradNorm ++ ", inner: " ++
      inner.text ++ " in " ++ toString innerIterations ++ " its"
  | outerExit flag iterations =>
    flag.text ++ " after " ++ toString iterations ++ " outer iterations"

/-- The name of a level. -/
def Level.text : Level → String
  | debug => "DEBUG"
  | trace => "TRACE"

/-- Whether a log that shows details up to `shown` has a line for a note of level `level`. -/
def Level.shows (shown level : Level) : Bool := shown = .trace || level = .debug

/-- The line of a note in a log that shows details up to `shown`, if it has one. -/
def Note.line? (shown : Level) (n : Note Float) : Option String :=
  if shown.shows n.level then some (n.level.text ++ " " ++ n.text) else none

end Optimum

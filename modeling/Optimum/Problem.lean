import Optimum.Dialogue
import Optimum.Matrix
import Optimum.Options

/-!
# Problems

What a run knows of the problem it solves: the functions it may call.  A run is a dialogue
(`Optimum.Dialogue`) whose questions are the calls: the objective at a point, the constraints
at a point, an estimate of the gradient, an update of the inverse Hessian, and the two one-way
messages, progress to a monitor and notes to a log.  `Callbacks` answers the questions in any
monad, so callbacks may keep a state.

An estimator of gradients evaluates the objective itself, as often and where it likes.  Its
answer is therefore a dialogue with the objective (`Plan`), which the run carries out.  In
this way an estimator can be used on any objective, also on one that a run composes of others.
-/

namespace Optimum

variable {α : Type}

/-! ### Constraints -/

/-- The residuals of the constraints at a point. -/
structure Residuals (α : Type) where
  /-- The inequality residuals: feasible where not positive. -/
  ineq : Vec α
  /-- The equality residuals: feasible where zero. -/
  eq : Vec α
  deriving Inhabited

namespace Residuals

variable [Scalar α]

/-- Succeeds if all residuals are finite. -/
def checkFinite (r : Residuals α) : Except (Failure α) Unit :=
  if Scalar.allFinite r.ineq ∧ Scalar.allFinite r.eq then .ok ()
  else .error (.nonFiniteValue .constraints)

/-- Succeeds if there are `ng` inequality and `nh` equality residuals, all finite.  The numbers
are checked first, that of the inequalities before that of the equalities. -/
def check (r : Residuals α) (ng nh : Nat) : Except (Failure α) Unit :=
  if r.ineq.length ≠ ng then .error (.dimensionMismatch .inequalities ng r.ineq.length)
  else if r.eq.length ≠ nh then .error (.dimensionMismatch .equalities nh r.eq.length)
  else r.checkFinite

end Residuals

/-! ### Questions and answers -/

/-- What a monitor is told after an iteration. -/
structure Progress (α : Type) where
  /-- The number of the iteration, from one. -/
  iteration : Nat
  /-- The objective at the new iterate. -/
  objective : α
  /-- The norm of the gradient at the new iterate. -/
  gradNorm : α
  /-- The distance from the last iterate to the new one. -/
  stepSize : α
  /-- The step length that the line search took. -/
  alpha : α

/-- What a run notes down for its log. -/
inductive Note (α : Type) where
  /-- A search over an interval spent its budget before the bracket was resolved. -/
  | searchStopped (evaluations : Nat)
  /-- The result of a search over an interval. -/
  | searchDone (x f : α) (evaluations : Nat)
  /-- A line search took an end of its interval. -/
  | notBracketed (alpha : α)
  /-- An update of the inverse Hessian was skipped. -/
  | updateSkipped (curvature : α)
  /-- An iteration of a descent is complete. -/
  | iteration (p : Progress α)
  /-- A descent stopped. -/
  | exit (flag : ExitFlag) (iterations : Nat)
  /-- An outer iteration of the augmented Lagrangian method is complete. -/
  | outer (iteration : Nat) (objective violation gradNorm : α) (inner : ExitFlag)
      (innerIterations : Nat)
  /-- The augmented Lagrangian method stopped. -/
  | outerExit (flag : ExitFlag) (iterations : Nat)

/-- How much detail a log shows. -/
inductive Level where
  /-- The course of a run. -/
  | debug
  /-- The inside of its searches as well. -/
  | trace
  deriving DecidableEq, Repr

/-- The level at which a note appears. -/
def Note.level : Note α → Level
  | searchStopped .. => .trace
  | searchDone .. => .trace
  | _ => .debug

/-- An estimator's dialogue with the objective, in which a question is a point. -/
abbrev Plan (α β : Type) := Dialogue (fun _ : Vec α => α) β

/-- A call that a run makes. -/
inductive Question (α : Type) where
  /-- The value of the objective at a point. -/
  | objective (x : Vec α)
  /-- The residuals of the constraints at a point. -/
  | constraints (x : Vec α)
  /-- An estimate of the gradient at a point, with a suggested difference step. -/
  | gradient (x : Vec α) (h : α)
  /-- The change of an inverse Hessian for a step and the change of gradient along it. -/
  | update (b : Mat α) (dx dg : Vec α)
  /-- A message to the monitor. -/
  | progress (p : Progress α)
  /-- A message to the log. -/
  | note (n : Note α)

/-- The type of the answer to a question. -/
abbrev Answer (α : Type) : Question α → Type
  | .objective _ => α
  | .constraints _ => Residuals α
  | .gradient _ _ => Plan α (Vec α)
  | .update _ _ _ => Except (Failure α) (Mat α)
  | .progress _ => Unit
  | .note _ => Unit

/-- The functions of a problem, in the monad that they need. -/
structure Callbacks (m : Type → Type) (α : Type) where
  /-- The objective, to be minimised. -/
  objective : Vec α → m α
  /-- The constraints. -/
  constraints : Vec α → m (Residuals α)
  /-- The estimator of gradients. -/
  gradient : Vec α → α → m (Plan α (Vec α))
  /-- The rule that updates inverse Hessians. -/
  update : Mat α → Vec α → Vec α → m (Except (Failure α) (Mat α))
  /-- The monitor. -/
  progress : Progress α → m Unit
  /-- The log. -/
  note : Note α → m Unit

/-- The answers that callbacks give. -/
def Callbacks.answer {m : Type → Type} (c : Callbacks m α) : (q : Question α) → m (Answer α q)
  | .objective x => c.objective x
  | .constraints x => c.constraints x
  | .gradient x h => c.gradient x h
  | .update b dx dg => c.update b dx dg
  | .progress p => c.progress p
  | .note n => c.note n

/-! ### Runs -/

/-- A run: a dialogue with a problem that gives a result or fails. -/
abbrev Run (α β : Type) := ExceptT (Failure α) (Dialogue (Answer α)) β

namespace Run

/-- Asks a question. -/
def query (q : Question α) : Run α (Answer α q) := ExceptT.lift (Dialogue.query q)

/-- The objective at a point. -/
def objective (x : Vec α) : Run α α := query (.objective x)

/-- The constraint residuals at a point. -/
def constraints (x : Vec α) : Run α (Residuals α) := query (.constraints x)

/-- Tells the monitor. -/
def progress (p : Progress α) : Run α Unit := query (.progress p)

/-- Tells the log. -/
def note (n : Note α) : Run α Unit := query (.note n)

/-- The gradient estimate at a point: the estimator's plan, carried out on the objective. -/
def gradient (x : Vec α) (h : α) : Run α (Vec α) := do
  let plan : Plan α (Vec α) ← query (.gradient x h)
  plan.run objective

end Run

/-- The calls of a run with their answers, in order. -/
abbrev Transcript (α : Type) := Dialogue.Record (Answer α)

section Outcome

variable {β : Type} {m : Type → Type} [Monad m]

/-- The outcome of a run on a problem. -/
def Run.on (run : Run α β) (problem : Callbacks m α) : m (Except (Failure α) β) :=
  Dialogue.run problem.answer run.run

/-- The outcome of a run on a problem, and the calls it made. -/
def Run.recordOn (run : Run α β) (problem : Callbacks m α) :
    m (Except (Failure α) β × Transcript α) :=
  Dialogue.record problem.answer run.run

end Outcome

/-! ### Views of a transcript -/

namespace Transcript

/-- The points at which the objective was evaluated, with its values. -/
def evaluations (t : Transcript α) : List (Vec α × α) :=
  t.filterMap fun
    | ⟨.objective x, v⟩ => some (x, v)
    | _ => none

/-- The points at which the constraints were evaluated, with the residuals. -/
def constraintEvaluations (t : Transcript α) : List (Vec α × Residuals α) :=
  t.filterMap fun
    | ⟨.constraints x, r⟩ => some (x, r)
    | _ => none

/-- The results of the calls of the update rule. -/
def updates (t : Transcript α) : List (Except (Failure α) (Mat α)) :=
  t.filterMap fun
    | ⟨.update _ _ _, r⟩ => some r
    | _ => none

/-- The curvatures of the updates that were skipped. -/
def skipped (t : Transcript α) : List α :=
  t.updates.filterMap fun
    | .error (.illConditionedUpdate c) => some c
    | _ => none

/-- What the monitor was told. -/
def progress (t : Transcript α) : List (Progress α) :=
  t.filterMap fun
    | ⟨.progress p, _⟩ => some p
    | _ => none

/-- What was noted for the log. -/
def notes (t : Transcript α) : List (Note α) :=
  t.filterMap fun
    | ⟨.note n, _⟩ => some n
    | _ => none

end Transcript

end Optimum

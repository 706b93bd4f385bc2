import Optimum.Penalty

/-!
# The augmented Lagrangian

For fixed multipliers `mu`, `lambda` and a penalty parameter `rho`, the augmented Lagrangian of
an objective `f` under constraints with residuals `g`, `h` is

    L(x) = f(x) + lambda·h(x) + mu·g(x) + rho (Σ max(0, gᵢ(x))² + Σ hⱼ(x)²).

It has to be a function with values for every point, also where the constraints give residuals
that do not fit the multipliers or are not finite.  There its value is undefined, the objective
is not evaluated, and the failure is kept; of several failures the first is.  `Run.under` makes
a run take the Lagrangian for its objective, and lets a kept failure stand for the failure of
the run that it caused.
-/

namespace Optimum

open Scalar

variable {α : Type}

/-- Multipliers of the constraints. -/
structure Multipliers (α : Type) where
  /-- The multipliers of the inequalities. -/
  ineq : Vec α
  /-- The multipliers of the equalities. -/
  eq : Vec α

/-- An augmented Lagrangian, apart from its objective and constraints. -/
structure Lagrangian (α : Type) where
  /-- The multipliers. -/
  multipliers : Multipliers α
  /-- The penalty parameter. -/
  rho : α

variable [Scalar α]

namespace Multipliers

/-- Zero multipliers of `ng` inequalities and `nh` equalities. -/
def zeros (ng nh : Nat) : Multipliers α := ⟨List.replicate ng 0, List.replicate nh 0⟩

/-- The multipliers moved by `rho` times the residuals; those of inequalities stay
non-negative. -/
def update (lam : Multipliers α) (rho : α) (r : Residuals α) : Multipliers α where
  ineq := List.zipWith (fun mu g => excess (mu + rho * g)) lam.ineq r.ineq
  eq := List.zipWith (fun l h => l + rho * h) lam.eq r.eq

end Multipliers

/-- The failure kept during evaluations of a Lagrangian, if there was one. -/
abbrev Kept (α : Type) := Option (Failure α)

/-- The kept failure when another one occurs: the first stays. -/
def Kept.keep (failure : Failure α) (kept : Kept α) : Kept α := kept.or (some failure)

namespace Lagrangian

/-- The value of the Lagrangian where the objective is `v` and the residuals are `r`. -/
def combine (l : Lagrangian α) (v : α) (r : Residuals α) : α :=
  v + Vec.dot l.multipliers.eq r.eq + Vec.dot l.multipliers.ineq r.ineq + l.rho * r.violation

/-- Whether residuals fit the multipliers and are finite. -/
def check (l : Lagrangian α) (r : Residuals α) : Except (Failure α) Unit :=
  r.check l.multipliers.ineq.length l.multipliers.eq.length

/-- The value at a point.  The constraints are evaluated first, and the objective only if their
residuals pass the check. -/
def value {m : Type → Type} [Monad m] (l : Lagrangian α) (f : Vec α → m α)
    (con : Vec α → m (Residuals α)) (x : Vec α) : StateT (Kept α) m α := do
  let r ← con x
  match l.check r with
  | .error failure => do
    modify (Kept.keep failure)
    pure undefined
  | .ok () => do
    let v ← f x
    pure (l.combine v r)

/-- The failure kept since it was last taken; afterwards none is. -/
def takeFailure {m : Type → Type} [Monad m] : StateT (Kept α) m (Kept α) := getModify fun _ => none

/-- Answers the questions of a run that takes the Lagrangian for its objective.  Questions for the
objective become evaluations of the Lagrangian, the monitor is told nothing, and all other
questions are passed on. -/
def relay (l : Lagrangian α) :
    (q : Question α) → StateT (Kept α) (Dialogue (Answer α)) (Answer α q)
  | .objective x =>
    l.value (fun x => Dialogue.query (A := Answer α) (.objective x))
      (fun x => Dialogue.query (A := Answer α) (.constraints x)) x
  | .constraints x => StateT.lift (Dialogue.query (A := Answer α) (.constraints x))
  | .gradient x h => StateT.lift (Dialogue.query (A := Answer α) (.gradient x h))
  | .update b dx dg => StateT.lift (Dialogue.query (A := Answer α) (.update b dx dg))
  | .progress _ => pure ()
  | .note n => StateT.lift (Dialogue.query (A := Answer α) (.note n))

end Lagrangian

/-- A run that takes a Lagrangian for its objective.  If it fails, the failure kept by the
Lagrangian is reported before its own. -/
def Run.under {β : Type} (l : Lagrangian α) (run : Run α β) : Run α β :=
  ExceptT.mk do
    let (result, kept) ← (Dialogue.run l.relay run.run).run none
    pure (result.mapError kept.getD)

end Optimum

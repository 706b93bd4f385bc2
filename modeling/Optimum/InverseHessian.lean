import Optimum.Failure
import Optimum.Matrix

/-!
# Inverse Hessian updates

Two rules that change an approximation `B` of the inverse Hessian after a step `s`, along which
the gradient changed by `y`:

* Broyden, Fletcher, Goldfarb, Shanno (`bfgs`):
  `dB = (1 + yᵀBy / sᵀy) ssᵀ / sᵀy - (s(By)ᵀ + (By)sᵀ) / sᵀy`;
* Davidon, Fletcher, Powell (`dfp`):
  `dB = ssᵀ / sᵀy - (By)(By)ᵀ / yᵀBy`.

Both ask for curvature, `sᵀy > 0` beyond rounding.  An update without it is refused, because
the matrix would no longer be positive definite.
-/

namespace Optimum

open Scalar

/-- A rule gives the change of an approximation for a step and its change of gradient. -/
abbrev UpdateRule (α : Type) := Mat α → Vec α → Vec α → Except (Failure α) (Mat α)

namespace UpdateRule

variable {α : Type} [Scalar α]

/-- Succeeds if the change of gradient is as long as the step and the approximation is square of
that size. -/
def checkSizes (b : Mat α) (dx dg : Vec α) : Except (Failure α) Unit :=
  if dg.length ≠ dx.length then
    .error (.dimensionMismatch .gradientChange dx.length dg.length)
  else if ¬ b.IsSquare dx.length then
    .error (.dimensionMismatch .inverseHessian dx.length b.height)
  else .ok ()

/-- The curvature of a step, which must be positive relative to the lengths of its vectors. -/
def curvature (dx dg : Vec α) : Except (Failure α) α :=
  let sy := Vec.dot dx dg
  if epsilon * Vec.norm dx * Vec.norm dg < sy then .ok sy else .error (.illConditionedUpdate sy)

/-- The change, if all of its entries are finite. -/
def checkFinite (db : Mat α) (sy : α) : Except (Failure α) (Mat α) :=
  if db.allFinite then .ok db else .error (.illConditionedUpdate sy)

/-- The Broyden-Fletcher-Goldfarb-Shanno rule. -/
def bfgs : UpdateRule α := fun b dx dg => do
  checkSizes b dx dg
  let sy ← curvature dx dg
  let u := b.mulVec dg
  let c := 1 + Vec.dotBlocked u dg / sy
  checkFinite (Mat.ofPairs (fun si ui sj uj => c * si * sj / sy - (si * uj + ui * sj) / sy) dx u) sy

/-- The Davidon-Fletcher-Powell rule. -/
def dfp : UpdateRule α := fun b dx dg => do
  checkSizes b dx dg
  let sy ← curvature dx dg
  let u := b.mulVec dg
  let yby := Vec.dotBlocked u dg
  if 0 < yby then
    checkFinite (Mat.ofPairs (fun si ui sj uj => si * sj / sy - ui * uj / yby) dx u) sy
  else throw (.illConditionedUpdate yby)

end UpdateRule

end Optimum

import Optimum.Failure
import Optimum.Vector

/-!
# Scaling

Design variables in units of their own.  Reference values, one for each variable, divide a
design vector, so that a method works with values of order one; the objective in scaled
variables multiplies them back.
-/

namespace Optimum

open Scalar

variable {α : Type}

/-- Succeeds if there is a reference value for each element of a vector. -/
def checkReference (x reference : Vec α) : Except (Failure α) Unit :=
  if x.length ≠ reference.length then
    .error (.dimensionMismatch .reference x.length reference.length)
  else .ok ()

variable [Scalar α]

/-- The vector divided by the reference values. -/
def scale (x reference : Vec α) : Except (Failure α) (Vec α) := do
  checkReference x reference
  pure (List.zipWith (· / ·) x reference)

/-- The vector multiplied by the reference values. -/
def descale (x reference : Vec α) : Except (Failure α) (Vec α) := do
  checkReference x reference
  pure (List.zipWith (· * ·) x reference)

/-- Whether a value can serve as a reference: it is finite and not zero. -/
def usableReference (r : α) : Bool := !(r == 0) && isFinite r

/-- Reference values that a scaling can use. -/
structure Reference (α : Type) [Scalar α] where
  /-- The values. -/
  values : Vec α
  /-- Each value is usable. -/
  usable : ∀ r ∈ values, usableReference r = true

namespace Reference

/-- The given values as a reference, if all are usable. -/
def ofValues (values : Vec α) : Except (Failure α) (Reference α) :=
  if h : values.all usableReference = true then .ok ⟨values, List.all_eq_true.mp h⟩
  else .error (.invalidOptions .referenceValues)

/-- The objective `f` in scaled variables.  A vector of the wrong length has an undefined value,
and `f` is not evaluated. -/
def present {m : Type → Type} [Monad m] (reference : Reference α) (f : Vec α → m α) (x : Vec α) :
    m α :=
  match descale x reference.values with
  | .ok y => f y
  | .error _ => pure undefined

end Reference

end Optimum

import Optimum.Scalar

/-!
# Double-precision scalars

The instance that programs run on.  Operations round to nearest, and comparisons are those
of floating-point numbers: all false on a value that is not a number, and blind to the sign
of zero.
-/

namespace Optimum

/-- Double-precision floating-point numbers.  The spacing above one is `2⁻⁵²`. -/
instance : Scalar Float where
  zero := 0.0
  one := 1.0
  sqrt := Float.sqrt
  magnitude := Float.abs
  isFinite := Float.isFinite
  epsilon := 2.220446049250313e-16
  decLE := inferInstance
  decLT := inferInstance

end Optimum

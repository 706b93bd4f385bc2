import Mathlib.Analysis.Real.Sqrt
import Optimum.Scalar

/-!
# Exact scalars

The real numbers as scalars: nothing is rounded, every value is finite, and the order is total.
What is proved of the algorithms over them is their mathematics. The spacing just above one is
kept as a constant, since the tests for curvature and resolution use it as one.
-/

namespace Optimum

/-- Exact real arithmetic. -/
noncomputable instance : Scalar ℝ where
  sqrt := Real.sqrt
  magnitude x := |x|
  isFinite _ := true
  epsilon := 2⁻¹ ^ 52
  beq x y := decide (x = y)
  decLE := inferInstance
  decLT := inferInstance

namespace Scalar

@[simp] theorem sqrt_real (x : ℝ) : sqrt x = Real.sqrt x := rfl

@[simp] theorem magnitude_real (x : ℝ) : magnitude x = |x| := rfl

@[simp] theorem isFinite_real (x : ℝ) : isFinite x = true := rfl

theorem epsilon_real_pos : 0 < (epsilon : ℝ) := pow_pos (inv_pos.mpr two_pos) 52

@[simp] theorem beq_real (x y : ℝ) : (x == y) = decide (x = y) := rfl

@[simp] theorem larger_real (x y : ℝ) : larger x y = max x y := by
  unfold larger
  split
  next h => exact (max_eq_left h).symm
  next h => simpa using (le_of_not_ge h)

@[simp] theorem excess_real (x : ℝ) : excess x = max x 0 := larger_real x 0

@[simp] theorem total_real (xs : List ℝ) : total xs = xs.sum := by
  rw [total, neg_zero, List.sum_eq_foldl]

@[simp] theorem allFinite_real (xs : List ℝ) : allFinite xs = true :=
  List.all_eq_true.mpr fun _ _ => rfl

end Scalar

end Optimum

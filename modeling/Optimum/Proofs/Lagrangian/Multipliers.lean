import Mathlib.Algebra.BigOperators.Intervals
import Mathlib.Algebra.Order.Group.Finset
import Optimum.Lagrangian
import Optimum.Proofs.Scalar.Exact

/-!
# Multipliers in closed form

The multiplier of an equality moves by `rho` times its residual at every step, so it is `rho` times
the sum of the residuals. That of an inequality moves in the same way, but is held at zero: it
forgets the steps before the last one at which it was held. So it is the largest of the sums over
the last steps, of which the empty sum is one.

## What is proved

* `largestTail_succ`: the recurrence that the largest sum of last values satisfies.
* `Multipliers.update_accumulated`: the closed form, one step on.
-/

namespace Optimum

open Scalar

/-! ### Sums of last values -/

/-- The largest of `rho` times the sum of the last values among `g 1, …, g k`: of those after `m`,
for some `m` up to `k`. -/
noncomputable def largestTail (rho : ℝ) (g : ℕ → ℝ) (k : ℕ) : ℝ :=
  (Finset.range (k + 1)).sup' Finset.nonempty_range_add_one fun m =>
    rho * ∑ l ∈ Finset.Icc (m + 1) k, g l

variable {rho : ℝ} {g : ℕ → ℝ} {k : ℕ}

/-- There is the empty sum. -/
theorem largestTail_nonneg : 0 ≤ largestTail rho g k := by
  have hempty : rho * ∑ l ∈ Finset.Icc (k + 1) k, g l = 0 := by simp
  rw [← hempty]
  exact Finset.le_sup' (fun m => rho * ∑ l ∈ Finset.Icc (m + 1) k, g l)
    (Finset.self_mem_range_succ k)

theorem largestTail_zero : largestTail rho g 0 = 0 := by
  simp [largestTail]

/-- One value more is added to every sum but the empty one. -/
theorem largestTail_succ :
    largestTail rho g (k + 1) = max (largestTail rho g k + rho * g (k + 1)) 0 := by
  have hsum : ∀ m ∈ Finset.range (k + 1), rho * ∑ l ∈ Finset.Icc (m + 1) (k + 1), g l =
      rho * ∑ l ∈ Finset.Icc (m + 1) k, g l + rho * g (k + 1) := fun m hm => by
    rw [Finset.sum_Icc_succ_top (Nat.succ_le_succ (Finset.mem_range_succ_iff.mp hm)), mul_add]
  have hlast : rho * ∑ l ∈ Finset.Icc (k + 1 + 1) (k + 1), g l = 0 := by simp
  have hrange : Finset.range (k + 1 + 1) = insert (k + 1) (Finset.range (k + 1)) :=
    Finset.range_add_one
  unfold largestTail
  rw [Finset.sup'_congr _ hrange fun _ _ => rfl, Finset.sup'_insert Finset.nonempty_range_add_one,
    hlast, Finset.sup'_congr Finset.nonempty_range_add_one rfl hsum, ← Finset.sup'_add, max_comm]

/-! ### Multipliers -/

namespace Multipliers

/-- The multipliers after `k` steps, at which the residuals were `r 1, …, r k`, if they start at
zero, with `ng` inequalities and `nh` equalities. -/
noncomputable def accumulated (rho : ℝ) (r : ℕ → Residuals ℝ) (ng nh k : ℕ) : Multipliers ℝ where
  ineq := List.ofFn fun i : Fin ng => largestTail rho (fun l => (r l).ineq.getD i 0) k
  eq := List.ofFn fun j : Fin nh => rho * ∑ l ∈ Finset.Icc 1 k, (r l).eq.getD j 0

variable {r : ℕ → Residuals ℝ} {ng nh : ℕ}

theorem accumulated_zero : accumulated rho r ng nh 0 = zeros ng nh := by
  simp [accumulated, zeros, largestTail_zero, List.ofFn_const]

/-- **Each step updates the multipliers**, if the residuals have their numbers. -/
theorem update_accumulated (hineq : (r (k + 1)).ineq.length = ng)
    (heq : (r (k + 1)).eq.length = nh) :
    (accumulated rho r ng nh k).update rho (r (k + 1)) = accumulated rho r ng nh (k + 1) := by
  rw [update, accumulated, accumulated, mk.injEq]
  constructor
  · refine List.ext_getElem (by simp [hineq]) fun i hi _ => ?_
    have hir : i < (r (k + 1)).ineq.length := by simpa [hineq] using hi
    simp [largestTail_succ, List.getElem_zipWith, List.getElem?_eq_getElem hir]
  · refine List.ext_getElem (by simp [heq]) fun j hj _ => ?_
    have hjr : j < (r (k + 1)).eq.length := by simpa [heq] using hj
    simp [Finset.sum_Icc_succ_top, mul_add, List.getElem?_eq_getElem hjr]

/-- The multipliers of inequalities are not negative. -/
theorem accumulated_nonneg : ∀ mu ∈ (accumulated rho r ng nh k).ineq, 0 ≤ mu := by
  intro mu hmu
  obtain ⟨i, rfl⟩ := List.mem_ofFn.mp hmu
  exact largestTail_nonneg

end Multipliers

end Optimum

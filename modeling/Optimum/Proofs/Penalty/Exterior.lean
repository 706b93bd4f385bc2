import Mathlib.Order.Filter.Extr
import Optimum.Proofs.Lagrangian.Optimality

/-!
# The penalty transform as an exterior penalty

The violation is zero exactly at feasible points, so there the penalty transform is the objective,
and elsewhere it is above it. A minimum of the transform is therefore no larger than any value of the
objective at a feasible point. It is outside the feasible region in general; a larger penalty
parameter moves it closer, at the price of a larger objective.

## What is proved

* `Residuals.violation_eq_zero_iff`: where the violation is zero.
* `violation_antitone`, `objective_mono`, `penaltyAt_mono` and `penaltyAt_le`: four inequalities
  between minima, from the comparison of each with the other point.
* `exterior_of_isMinOn`: minima of the transform for two penalty parameters.
-/

namespace Optimum

open Scalar

/-! ### Violations -/

namespace Residuals

variable (r : Residuals ℝ)

private theorem squares_nonneg : (∀ v ∈ r.ineq.map fun g => square (excess g), 0 ≤ v) ∧
    ∀ v ∈ r.eq.map square, 0 ≤ v := by
  simp only [List.forall_mem_map, square]
  exact ⟨fun _ _ => mul_self_nonneg _, fun _ _ => mul_self_nonneg _⟩

/-- A violation is not negative. -/
theorem violation_nonneg : 0 ≤ r.violation := by
  obtain ⟨hineq, heq⟩ := r.squares_nonneg
  rw [violation, total_real, total_real]
  exact add_nonneg (List.sum_nonneg hineq) (List.sum_nonneg heq)

/-- **The violation is zero exactly at feasible points.** -/
theorem violation_eq_zero_iff : r.violation = 0 ↔ r.Feasible := by
  refine ⟨fun h => ?_, fun h => h.violation⟩
  obtain ⟨hineq, heq⟩ := r.squares_nonneg
  rw [violation, total_real, total_real,
    add_eq_zero_iff_of_nonneg (List.sum_nonneg hineq) (List.sum_nonneg heq)] at h
  constructor
  · intro g hg
    have hsquare := List.all_zero_of_le_zero_le_of_sum_eq_zero hineq h.1 (List.mem_map_of_mem hg)
    rw [excess_real] at hsquare
    exact (le_max_left g 0).trans_eq (mul_self_eq_zero.mp hsquare)
  · intro e he
    have hsquare := List.all_zero_of_le_zero_le_of_sum_eq_zero heq h.2 (List.mem_map_of_mem he)
    exact mul_self_eq_zero.mp hsquare

end Residuals

/-! ### Minima of the transform -/

/-- The penalty transform of an objective and constraints without a state. -/
def penaltyAt {α : Type} [Scalar α] (f : Vec α → α) (con : Vec α → Residuals α) (rho : α)
    (x : Vec α) : α :=
  Id.run (penalty (m := Id) (fun y => pure (f y)) (fun y => pure (con y)) rho x)

section Minima

variable {f : Vec ℝ → ℝ} {con : Vec ℝ → Residuals ℝ} {rho rho₁ rho₂ : ℝ} {points : Set (Vec ℝ)}
  {x x₁ x₂ y : Vec ℝ}

theorem penaltyAt_eq : penaltyAt f con rho x = f x + rho * (con x).violation := rfl

/-- At a feasible point the transform is the objective. -/
theorem penaltyAt_of_feasible (h : (con x).Feasible) : penaltyAt f con rho x = f x := by
  rw [penaltyAt_eq, h.violation, mul_zero, add_zero]

/-- A larger penalty parameter does not make the violation larger. -/
theorem violation_antitone (hrho : rho₁ < rho₂)
    (h₁ : penaltyAt f con rho₁ x₁ ≤ penaltyAt f con rho₁ x₂)
    (h₂ : penaltyAt f con rho₂ x₂ ≤ penaltyAt f con rho₂ x₁) :
    (con x₂).violation ≤ (con x₁).violation := by
  simp only [penaltyAt_eq] at h₁ h₂
  have hproduct : (rho₂ - rho₁) * (con x₂).violation ≤ (rho₂ - rho₁) * (con x₁).violation := by
    linarith
  exact le_of_mul_le_mul_left hproduct (sub_pos.mpr hrho)

/-- It does not make the objective smaller. -/
theorem objective_mono (hrho₁ : 0 < rho₁) (hrho : rho₁ < rho₂)
    (h₁ : penaltyAt f con rho₁ x₁ ≤ penaltyAt f con rho₁ x₂)
    (h₂ : penaltyAt f con rho₂ x₂ ≤ penaltyAt f con rho₂ x₁) : f x₁ ≤ f x₂ := by
  have hviolation := mul_le_mul_of_nonneg_left (violation_antitone hrho h₁ h₂) hrho₁.le
  simp only [penaltyAt_eq] at h₁
  linarith

/-- Nor the minimum. -/
theorem penaltyAt_mono (hrho : rho₁ ≤ rho₂)
    (h₁ : penaltyAt f con rho₁ x₁ ≤ penaltyAt f con rho₁ x₂) :
    penaltyAt f con rho₁ x₁ ≤ penaltyAt f con rho₂ x₂ := by
  have hviolation := mul_le_mul_of_nonneg_right hrho (con x₂).violation_nonneg
  simp only [penaltyAt_eq] at h₁ ⊢
  linarith

/-- A minimum is a lower bound of the objective at feasible points. -/
theorem penaltyAt_le (h : IsMinOn (penaltyAt f con rho) points x) (hy : y ∈ points)
    (hfeasible : (con y).Feasible) : penaltyAt f con rho x ≤ f y :=
  (isMinOn_iff.mp h y hy).trans_eq (penaltyAt_of_feasible hfeasible)

/-- **The penalty transform is an exterior penalty.** Violations are not negative, and zero exactly
where the constraints are met. If `x₁` and `x₂` are minima of the transform over a set of points, `x₂`
for the larger penalty parameter, the violation at `x₂` is no larger than at `x₁`, and the objective
no smaller; nor is the minimum, which is no larger than any value of the objective at a feasible
point. If `x₁` is feasible, the objective has its minimum over the feasible points there. -/
theorem exterior_of_isMinOn (f : Vec ℝ → ℝ) (con : Vec ℝ → Residuals ℝ) (points : Set (Vec ℝ)) :
    (∀ r : Residuals ℝ, 0 ≤ r.violation ∧
      (r.violation = 0 ↔ (∀ g ∈ r.ineq, g ≤ 0) ∧ ∀ h ∈ r.eq, h = 0)) ∧
    ∀ rho₁ rho₂, 0 < rho₁ → rho₁ < rho₂ → ∀ x₁ ∈ points, ∀ x₂ ∈ points,
      IsMinOn (penaltyAt f con rho₁) points x₁ → IsMinOn (penaltyAt f con rho₂) points x₂ →
      (con x₂).violation ≤ (con x₁).violation ∧ f x₁ ≤ f x₂ ∧
      penaltyAt f con rho₁ x₁ ≤ penaltyAt f con rho₂ x₂ ∧
      (∀ y ∈ points, (con y).Feasible → penaltyAt f con rho₂ x₂ ≤ f y) ∧
      ((con x₁).Feasible → ∀ y ∈ points, (con y).Feasible → f x₁ ≤ f y) := by
  refine ⟨fun r => ⟨r.violation_nonneg, ?_⟩, fun rho₁ rho₂ hrho₁ hrho x₁ hx₁ x₂ hx₂ h₁ h₂ => ?_⟩
  · rw [r.violation_eq_zero_iff]
    exact ⟨fun h => ⟨h.ineq, h.eq⟩, fun h => ⟨h.1, h.2⟩⟩
  have h₁₂ := isMinOn_iff.mp h₁ x₂ hx₂
  have h₂₁ := isMinOn_iff.mp h₂ x₁ hx₁
  refine ⟨violation_antitone hrho h₁₂ h₂₁, objective_mono hrho₁ hrho h₁₂ h₂₁,
    penaltyAt_mono hrho.le h₁₂, fun y hy hfeasible => penaltyAt_le h₂ hy hfeasible,
    fun hfeasible y hy hfeasible' => ?_⟩
  calc f x₁ = penaltyAt f con rho₁ x₁ := (penaltyAt_of_feasible hfeasible).symm
    _ ≤ f y := penaltyAt_le h₁ hy hfeasible'

/-- The point of the half-plane `a ≥ 1` and the line `b = 1` that is nearest to the origin, approached
with penalty parameters one and three. -/
theorem exterior_of_isMinOn_nearest :
    let f : Vec ℝ → ℝ := fun y => Vec.dot y y
    let con : Vec ℝ → Residuals ℝ := fun y => ⟨[1 - y.getD 0 0], [y.getD 1 0 - 1]⟩
    let points : Set (Vec ℝ) := {y | ∃ a b, y = [a, b]}
    IsMinOn (penaltyAt f con 1) points [1 / 2, 1 / 2] ∧
      IsMinOn (penaltyAt f con 3) points [3 / 4, 3 / 4] ∧
      penaltyAt f con 1 [1 / 2, 1 / 2] = 1 ∧ penaltyAt f con 3 [3 / 4, 3 / 4] = 3 / 2 ∧
      ∀ y ∈ points, (con y).Feasible → 3 / 2 ≤ f y := by
  intro f con points
  have hvalue : ∀ rho a b, penaltyAt f con rho [a, b] =
      a * a + b * b + rho * (max (1 - a) 0 * max (1 - a) 0 + (b - 1) * (b - 1)) := by
    intro rho a b
    simp [penaltyAt_eq, Residuals.violation, f, con, square]
  have hreach : ∀ a : ℝ, 1 ≤ a + max (1 - a) 0 := fun a => by
    linarith [le_max_left (1 - a) 0]
  have hfirst : penaltyAt f con 1 [1 / 2, 1 / 2] = 1 := by
    rw [hvalue]
    norm_num
  have hsecond : penaltyAt f con 3 [3 / 4, 3 / 4] = 3 / 2 := by
    rw [hvalue]
    norm_num
  have hmin₁ : IsMinOn (penaltyAt f con 1) points [1 / 2, 1 / 2] := by
    rw [isMinOn_iff, hfirst]
    rintro y ⟨a, b, rfl⟩
    rw [hvalue]
    nlinarith only [hreach a, sq_nonneg (a - max (1 - a) 0), sq_nonneg (a + max (1 - a) 0 - 1),
      sq_nonneg (2 * b - 1)]
  have hmin₂ : IsMinOn (penaltyAt f con 3) points [3 / 4, 3 / 4] := by
    rw [isMinOn_iff, hsecond]
    rintro y ⟨a, b, rfl⟩
    rw [hvalue]
    nlinarith only [hreach a, sq_nonneg (a - 3 * max (1 - a) 0), sq_nonneg (a + max (1 - a) 0 - 1),
      sq_nonneg (4 * b - 3)]
  obtain ⟨-, hminima⟩ := exterior_of_isMinOn f con points
  obtain ⟨-, -, -, hle, -⟩ :=
    hminima 1 3 one_pos (by norm_num) _ ⟨_, _, rfl⟩ _ ⟨_, _, rfl⟩ hmin₁ hmin₂
  rw [hsecond] at hle
  exact ⟨hmin₁, hmin₂, hfirst, hsecond, hle⟩

end Minima

end Optimum

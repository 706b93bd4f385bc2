import Mathlib.Tactic.Linarith
import Mathlib.Tactic.Positivity
import Optimum.Lagrangian
import Optimum.Proofs.Vector.Exact

/-!
# Optimality of fixed points

The multiplier update and the augmented Lagrangian fit together: if an update leaves the multipliers
as they are, the residuals are those of a feasible point, and complementary to the multipliers. A
minimum of the Lagrangian is then a minimum of the objective among the feasible points, since the
Lagrangian is the objective there, and is nowhere above it on feasible points.

## What is proved

* `Multipliers.update_eq_self_iff`: what the fixed points of the update are.
* `Lagrangian.combine_eq` and `Lagrangian.combine_le`: the Lagrangian at a fixed point, and at a
  feasible point.
* `Lagrangian.optimal_of_fixed`: a minimum of the Lagrangian that is a fixed point is an optimum.
-/

namespace Optimum

open Scalar

/-! ### Conditions -/

/-- The residuals of a point that meets the constraints. -/
structure Residuals.Feasible (r : Residuals ℝ) : Prop where
  /-- No inequality residual is positive. -/
  ineq : ∀ g ∈ r.ineq, g ≤ 0
  /-- Every equality residual is zero. -/
  eq : ∀ h ∈ r.eq, h = 0

namespace Multipliers

/-- There is a multiplier for each residual. -/
structure Fits {α : Type} (lam : Multipliers α) (r : Residuals α) : Prop where
  /-- For each inequality residual. -/
  ineq : r.ineq.length = lam.ineq.length
  /-- For each equality residual. -/
  eq : r.eq.length = lam.eq.length

/-- The conditions of optimality that link multipliers to residuals. -/
structure Complementary (lam : Multipliers ℝ) (r : Residuals ℝ) : Prop where
  /-- The multipliers of inequalities are not negative. -/
  nonneg : ∀ mu ∈ lam.ineq, 0 ≤ mu
  /-- The constraints are met. -/
  feasible : r.Feasible
  /-- An inequality whose multiplier is not zero holds with equality. -/
  slack : ∀ p ∈ lam.ineq.zip r.ineq, p.1 * p.2 = 0

/-! ### Fixed points of the update -/

/-- An inequality multiplier stays only if it, or the residual, is at its bound. -/
theorem excess_eq_self_iff {rho mu g : ℝ} (hrho : 0 < rho) :
    excess (mu + rho * g) = mu ↔ 0 ≤ mu ∧ g ≤ 0 ∧ mu * g = 0 := by
  rw [excess_real]
  constructor
  · intro h
    have hmu : 0 ≤ mu := by
      rw [← h]
      exact le_max_right _ _
    have hle : mu + rho * g ≤ mu := le_of_le_of_eq (le_max_left _ _) h
    have hg : g ≤ 0 := nonpos_of_mul_nonpos_right (by linarith) hrho
    refine ⟨hmu, hg, ?_⟩
    rcases max_choice (mu + rho * g) 0 with hmax | hmax
    · have hzero : rho * g = 0 := by linarith
      rw [(mul_eq_zero.mp hzero).resolve_left hrho.ne', mul_zero]
    · rw [← h, hmax, zero_mul]
  · rintro ⟨hmu, hg, hslack⟩
    rcases mul_eq_zero.mp hslack with rfl | rfl
    · rw [zero_add]
      exact max_eq_right (mul_nonpos_of_nonneg_of_nonpos hrho.le hg)
    · rw [mul_zero, add_zero]
      exact max_eq_left hmu

theorem zipWith_excess_eq_self_iff {rho : ℝ} (hrho : 0 < rho) {mus gs : Vec ℝ}
    (hlen : gs.length = mus.length) :
    List.zipWith (fun mu g => excess (mu + rho * g)) mus gs = mus ↔
      (∀ mu ∈ mus, 0 ≤ mu) ∧ (∀ g ∈ gs, g ≤ 0) ∧ ∀ p ∈ mus.zip gs, p.1 * p.2 = 0 := by
  induction mus generalizing gs with
  | nil =>
    rw [List.eq_nil_of_length_eq_zero hlen]
    simp
  | cons mu mus ih =>
    obtain ⟨g, gs, rfl⟩ := List.exists_cons_of_length_eq_add_one hlen
    rw [List.zipWith_cons_cons, List.cons.injEq, excess_eq_self_iff hrho,
      ih (Nat.succ.inj hlen), List.zip_cons_cons]
    simp only [List.forall_mem_cons]
    tauto

theorem zipWith_add_eq_self_iff {rho : ℝ} (hrho : 0 < rho) {ls hs : Vec ℝ}
    (hlen : hs.length = ls.length) :
    List.zipWith (fun l h => l + rho * h) ls hs = ls ↔ ∀ h ∈ hs, h = 0 := by
  induction ls generalizing hs with
  | nil =>
    rw [List.eq_nil_of_length_eq_zero hlen]
    simp
  | cons l ls ih =>
    obtain ⟨h, hs, rfl⟩ := List.exists_cons_of_length_eq_add_one hlen
    rw [List.zipWith_cons_cons, List.cons.injEq, add_eq_left, mul_eq_zero,
      or_iff_right hrho.ne', ih (Nat.succ.inj hlen), List.forall_mem_cons]

/-- **The fixed points of the update are the multipliers that are complementary to the
residuals.** -/
theorem update_eq_self_iff {lam : Multipliers ℝ} {r : Residuals ℝ} {rho : ℝ} (hrho : 0 < rho)
    (hfits : lam.Fits r) : lam.update rho r = lam ↔ lam.Complementary r := by
  obtain ⟨mus, ls⟩ := lam
  rw [update, mk.injEq, zipWith_excess_eq_self_iff hrho hfits.ineq,
    zipWith_add_eq_self_iff hrho hfits.eq]
  constructor
  · rintro ⟨⟨hnonneg, hineq, hslack⟩, heq⟩
    exact ⟨hnonneg, ⟨hineq, heq⟩, hslack⟩
  · rintro ⟨hnonneg, ⟨hineq, heq⟩, hslack⟩
    exact ⟨⟨hnonneg, hineq, hslack⟩, heq⟩

end Multipliers

/-! ### Values of the Lagrangian -/

/-- An inner product, term by term. -/
theorem Vec.dot_eq_sum_zip (a b : Vec ℝ) : dot a b = ((a.zip b).map fun p => p.1 * p.2).sum := by
  rw [dot, total_real, List.zip, List.map_zipWith]

/-- A feasible point violates nothing. -/
theorem Residuals.Feasible.violation {r : Residuals ℝ} (h : r.Feasible) : r.violation = 0 := by
  have hineq : (r.ineq.map fun g => square (excess g)).sum = 0 := by
    refine List.sum_eq_zero fun v hv => ?_
    obtain ⟨g, hg, rfl⟩ := List.mem_map.mp hv
    rw [excess_real, max_eq_right (h.ineq g hg), square, zero_mul]
  have heq : (r.eq.map square).sum = 0 := by
    refine List.sum_eq_zero fun v hv => ?_
    obtain ⟨e, he, rfl⟩ := List.mem_map.mp hv
    rw [h.eq e he, square, zero_mul]
  rw [Residuals.violation, total_real, total_real, hineq, heq, add_zero]

/-- Residuals that fit the multipliers pass the check. -/
theorem Multipliers.Fits.check {lam : Multipliers ℝ} {r : Residuals ℝ} (h : lam.Fits r) :
    r.check lam.ineq.length lam.eq.length = .ok () := by
  rw [Residuals.check, if_neg (not_not.mpr h.ineq), if_neg (not_not.mpr h.eq),
    Residuals.checkFinite, allFinite_real, allFinite_real]
  rfl

namespace Lagrangian

/-- The value at a point of an objective and constraints without a state. -/
def valueAt {α : Type} [Scalar α] (l : Lagrangian α) (f : Vec α → α) (con : Vec α → Residuals α)
    (x : Vec α) : α :=
  (Id.run ((l.value (m := Id) (fun y => pure (f y)) (fun y => pure (con y)) x).run none)).1

variable {l : Lagrangian ℝ} {r : Residuals ℝ} {f : Vec ℝ → ℝ} {con : Vec ℝ → Residuals ℝ}
  {x : Vec ℝ}

theorem check_of_fits (h : l.multipliers.Fits r) : l.check r = .ok () := h.check

theorem valueAt_eq (h : l.multipliers.Fits (con x)) :
    l.valueAt f con x = l.combine (f x) (con x) := by
  simp [valueAt, value, check_of_fits h]

theorem dot_eq_of_feasible (h : r.Feasible) : Vec.dot l.multipliers.eq r.eq = 0 := by
  rw [Vec.dot_eq_sum_zip]
  refine List.sum_eq_zero fun v hv => ?_
  obtain ⟨p, hp, rfl⟩ := List.mem_map.mp hv
  rw [h.eq p.2 (List.of_mem_zip hp).2, mul_zero]

/-- At residuals that are complementary to the multipliers, the Lagrangian is the objective. -/
theorem combine_eq (h : l.multipliers.Complementary r) (v : ℝ) : l.combine v r = v := by
  have hineq : Vec.dot l.multipliers.ineq r.ineq = 0 := by
    rw [Vec.dot_eq_sum_zip]
    refine List.sum_eq_zero fun v hv => ?_
    obtain ⟨p, hp, rfl⟩ := List.mem_map.mp hv
    exact h.slack p hp
  rw [combine, dot_eq_of_feasible h.feasible, hineq, h.feasible.violation]
  ring

/-- At residuals of a feasible point, the Lagrangian is not above the objective. -/
theorem combine_le (hnonneg : ∀ mu ∈ l.multipliers.ineq, 0 ≤ mu) (h : r.Feasible) (v : ℝ) :
    l.combine v r ≤ v := by
  have hineq : Vec.dot l.multipliers.ineq r.ineq ≤ 0 := by
    rw [Vec.dot_eq_sum_zip]
    refine (List.sum_le_card_nsmul _ 0 fun v hv => ?_).trans_eq (smul_zero _)
    obtain ⟨p, hp, rfl⟩ := List.mem_map.mp hv
    obtain ⟨hmu, hg⟩ := List.of_mem_zip hp
    exact mul_nonpos_of_nonneg_of_nonpos (hnonneg p.1 hmu) (h.ineq p.2 hg)
  rw [combine, dot_eq_of_feasible h, h.violation]
  linarith

/-! ### Optimality -/

/-- **Fixed points of the multiplier update are constrained optima.** The update leaves the
multipliers as they are exactly if they are complementary to the residuals. If they are left as they
are where the Lagrangian has its minimum over a set of points, that point is feasible, and the
objective has its minimum over the feasible points of the set there. -/
theorem optimal_of_fixed {points : Set (Vec ℝ)} (hrho : 0 < l.rho) (hx : x ∈ points)
    (hfits : ∀ y ∈ points, l.multipliers.Fits (con y)) :
    (l.multipliers.update l.rho (con x) = l.multipliers ↔ l.multipliers.Complementary (con x)) ∧
    (l.multipliers.update l.rho (con x) = l.multipliers →
      (∀ y ∈ points, l.valueAt f con x ≤ l.valueAt f con y) →
      (con x).Feasible ∧ ∀ y ∈ points, (con y).Feasible → f x ≤ f y) := by
  have hiff := Multipliers.update_eq_self_iff hrho (hfits x hx)
  refine ⟨hiff, fun hfixed hmin => ?_⟩
  have hcomp := hiff.mp hfixed
  refine ⟨hcomp.feasible, fun y hy hfeasible => ?_⟩
  calc f x = l.valueAt f con x := by rw [valueAt_eq (hfits x hx), combine_eq hcomp]
    _ ≤ l.valueAt f con y := hmin y hy
    _ = l.combine (f y) (con y) := valueAt_eq (hfits y hy)
    _ ≤ f y := combine_le hcomp.nonneg hfeasible (f y)

/-- The point of the half-plane `a ≥ 1` and the line `b = 1` that is nearest to the origin. -/
theorem optimal_of_fixed_nearest :
    let con : Vec ℝ → Residuals ℝ := fun y => ⟨[1 - y.getD 0 0], [y.getD 1 0 - 1]⟩
    let l : Lagrangian ℝ := ⟨⟨[2], [-2]⟩, 1⟩
    let points : Set (Vec ℝ) := {y | ∃ a b, y = [a, b]}
    0 < l.rho ∧ [1, 1] ∈ points ∧ (∀ y ∈ points, l.multipliers.Fits (con y)) ∧
      l.multipliers.update l.rho (con [1, 1]) = l.multipliers ∧
      ∀ y ∈ points, (con y).Feasible → Vec.dot [1, 1] [1, 1] ≤ Vec.dot y y := by
  intro con l points
  have hrho : 0 < l.rho := one_pos
  have hx : [1, 1] ∈ points := ⟨1, 1, rfl⟩
  have hfits : ∀ y ∈ points, l.multipliers.Fits (con y) := fun y _ => ⟨rfl, rfl⟩
  obtain ⟨hiff, hoptimal⟩ := optimal_of_fixed (f := fun y => Vec.dot y y) hrho hx hfits
  have hfixed : l.multipliers.update l.rho (con [1, 1]) = l.multipliers := by
    refine hiff.mpr ⟨?_, ⟨?_, ?_⟩, ?_⟩ <;> simp [l, con]
  refine ⟨hrho, hx, hfits, hfixed, (hoptimal hfixed ?_).2⟩
  rintro y ⟨a, b, rfl⟩
  rw [valueAt_eq (hfits _ hx), valueAt_eq (hfits [a, b] ⟨a, b, rfl⟩)]
  have hviolation : 0 ≤ (max (1 - a) 0) ^ 2 + (b - 1) ^ 2 := by positivity
  simp only [combine, Residuals.violation, con, l, square, excess_real, total_real, Vec.dot_cons,
    Vec.dot_nil_left, List.map_cons, List.map_nil, List.sum_cons, List.sum_nil, List.getD_cons_zero,
    List.getD_cons_succ]
  norm_num
  nlinarith [sq_nonneg (a - 1), sq_nonneg (b - 1)]

end Lagrangian

end Optimum

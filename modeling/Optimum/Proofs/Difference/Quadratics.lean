import Mathlib.Tactic.FieldSimp
import Optimum.Proofs.Descent.Frames

/-!
# Difference quotients of quadratic objectives

In exact arithmetic the error of a difference quotient on a quadratic objective is known. A step `h`
along a coordinate changes the objective by `h` times the derivative and `h²` times the diagonal
entry of the matrix. Central differences cancel the second term, so they are the derivative itself,
whatever the step; forward differences are off by `h` times the diagonal entry. This takes that each
point evaluated differs from the given one in one coordinate only: in another one the products of
both would show.

## What is proved

* `Plan.exchanged_forward` and `Plan.exchanged_central`: which points are evaluated, for every
  objective.
* `Quadratic.value_add_single`: what a step along a coordinate changes.
* `Quadratic.differences_exact`: estimates and evaluations on a quadratic objective.
-/

namespace Optimum

open Matrix

/-! ### Evaluations -/

namespace Plan

open Dialogue

theorem exchanged_mapM {ι : Type} (f : Vec ℝ → ℝ) (quotient : ι → Plan ℝ ℝ) (is : List ι) :
    exchanged f (is.mapM quotient) = is.flatMap fun i => exchanged f (quotient i) := by
  induction is with
  | nil => rfl
  | cons i is ih =>
    rw [List.mapM_cons, exchanged_bind, exchanged_bind, ih, List.flatMap_cons]
    exact congrArg _ (List.append_nil _)

/-- Forward differences evaluate the objective at the point, and then ahead of it along each
coordinate. -/
theorem exchanged_forward (f : Vec ℝ → ℝ) (x : Vec ℝ) (h : ℝ) :
    exchanged f (forward x h) = ⟨x, f x⟩ :: (perturbed (· + h) x).map fun y => ⟨y, f y⟩ := by
  rw [forward, exchanged_bind, exchanged_mapM, List.map_eq_flatMap]
  rfl

/-- Central differences evaluate it ahead of the point and behind it, along each coordinate. -/
theorem exchanged_central (f : Vec ℝ → ℝ) (x : Vec ℝ) (h : ℝ) :
    exchanged f (central x h) =
      ((perturbed (· + h) x).zip (perturbed (· - h) x)).flatMap fun p =>
        [⟨p.1, f p.1⟩, ⟨p.2, f p.2⟩] :=
  exchanged_mapM f _ _

/-- The points that differ in one coordinate. -/
theorem perturbed_ofFn {n : ℕ} (f : ℝ → ℝ) (x : Fin n → ℝ) :
    perturbed f (List.ofFn x) =
      (List.finRange n).map fun i => List.ofFn (Function.update x i (f (x i))) := by
  refine List.ext_getElem (by simp) fun i hi hi' => ?_
  refine List.ext_getElem (by simp [perturbed]) fun j hj hj' => ?_
  simp [perturbed, List.getElem_set, Function.update_apply, Fin.ext_iff, eq_comm]

end Plan

/-! ### Quadratic objectives -/

/-- A quadratic function of `n` coordinates. -/
structure Quadratic (n : ℕ) where
  /-- The matrix of the quadratic form. -/
  A : Matrix (Fin n) (Fin n) ℝ
  /-- It is symmetric. -/
  symm : A.IsSymm
  /-- The linear part. -/
  b : Fin n → ℝ
  /-- The constant. -/
  c : ℝ

namespace Quadratic

variable {n : ℕ} (q : Quadratic n) (x : Fin n → ℝ)

/-- The value at a point. -/
def value : ℝ := x ⬝ᵥ q.A *ᵥ x + q.b ⬝ᵥ x + q.c

/-- The gradient at a point. -/
def gradient : Fin n → ℝ := 2 • q.A *ᵥ x + q.b

/-- The quadratic as an objective. -/
def objective (y : Vec ℝ) : ℝ := q.value (Vec.coords n y)

theorem objective_ofFn : q.objective (List.ofFn x) = q.value x := by
  rw [objective, Vec.coords_ofFn]

/-- **A step along a coordinate** changes the value by the derivative and the diagonal entry. -/
theorem value_add_single (i : Fin n) (t : ℝ) :
    q.value (x + Pi.single i t) = q.value x + t * q.gradient x i + t ^ 2 * q.A i i := by
  have hcross : x ⬝ᵥ q.A *ᵥ Pi.single i t = t * (q.A *ᵥ x) i := by
    rw [dotProduct_mulVec, ← mulVec_transpose, q.symm.eq, dotProduct_single, mul_comm]
  have hsquare : Pi.single i t ⬝ᵥ q.A *ᵥ Pi.single i t = t ^ 2 * q.A i i := by
    rw [single_dotProduct, mulVec_single, Pi.smul_apply, MulOpposite.smul_eq_mul_unop,
      MulOpposite.unop_op, col_apply]
    ring
  simp only [value, gradient, mulVec_add, dotProduct_add, add_dotProduct, hcross, hsquare,
    single_dotProduct, dotProduct_single, Pi.add_apply, two_nsmul]
  ring

/-- The quotient ahead is off by the step times the diagonal entry. -/
theorem forward_quotient (i : Fin n) {h : ℝ} (hh : h ≠ 0) :
    (q.value (x + Pi.single i h) - q.value x) / h = q.gradient x i + h * q.A i i := by
  rw [value_add_single]
  field_simp
  ring

/-- In the quotient across the point the diagonal entry cancels. -/
theorem central_quotient (i : Fin n) {h : ℝ} (hh : h ≠ 0) :
    (q.value (x + Pi.single i h) - q.value (x - Pi.single i h)) / (2.0 * h) = q.gradient x i := by
  rw [sub_eq_add_neg x, ← Pi.single_neg, value_add_single, value_add_single]
  field_simp
  norm_num
  ring

/-- The evaluation at a point. -/
def sample : Dialogue.Exchange fun _ : Vec ℝ => ℝ := ⟨List.ofFn x, q.value x⟩

/-- The points that differ in one coordinate by a step. -/
theorem perturbed_add (t : ℝ) : Plan.perturbed (· + t) (List.ofFn x) =
    (List.finRange n).map fun i => List.ofFn (x + Pi.single i t) := by
  rw [Plan.perturbed_ofFn]
  refine List.map_congr_left fun i _ => congrArg List.ofFn ?_
  funext j
  by_cases hij : j = i
  · subst hij
    simp
  · simp [hij]

/-- **Difference quotients of a quadratic objective**, in exact arithmetic. Central differences are
the gradient. They take two evaluations for each coordinate, ahead of the point and behind it. Forward
differences are off by the step times the diagonal entry. They take an evaluation at the point and one
ahead of it for each coordinate. -/
theorem differences_exact (q : Quadratic n) (x : Fin n → ℝ) {h : ℝ} (hh : h ≠ 0) :
    Id.run ((Plan.central (List.ofFn x) h).record fun y => pure (q.objective y)) =
      (List.ofFn (q.gradient x),
        (List.finRange n).flatMap fun i =>
          [q.sample (x + Pi.single i h), q.sample (x - Pi.single i h)]) ∧
    Id.run ((Plan.forward (List.ofFn x) h).record fun y => pure (q.objective y)) =
      (List.ofFn fun i => q.gradient x i + h * q.A i i,
        q.sample x :: (List.finRange n).map fun i => q.sample (x + Pi.single i h)) := by
  have hback : Plan.perturbed (· - h) (List.ofFn x) =
      (List.finRange n).map fun i => List.ofFn (x - Pi.single i h) := by
    simpa only [sub_eq_add_neg, Pi.single_neg] using perturbed_add x (-h)
  constructor
  · rw [Dialogue.record_eq_answered, Plan.answered_central, Plan.exchanged_central, perturbed_add,
      hback, List.zip_map', List.map_map, List.flatMap_map]
    refine Prod.ext ((List.map_congr_left fun i _ => ?_).trans List.ofFn_eq_map.symm) ?_
    · simp only [Function.comp_apply, objective_ofFn, q.central_quotient x i hh]
    · simp only [objective_ofFn, sample]
  · rw [Dialogue.record_eq_answered, Plan.answered_forward, Plan.exchanged_forward, perturbed_add,
      List.map_map, List.map_map]
    refine Prod.ext ((List.map_congr_left fun i _ => ?_).trans List.ofFn_eq_map.symm) ?_
    · simp only [Function.comp_apply, objective_ofFn, q.forward_quotient x i hh]
    · simp only [Function.comp_def, objective_ofFn, sample]

/-- The quadratic `a² + 2 a b + 3 b² + a` at `(1, -1)`, with step two. -/
theorem differences_exact_plane :
    let q : Quadratic 2 := {
      A := !![1, 1; 1, 3]
      symm := IsSymm.ext fun i j => by fin_cases i <;> fin_cases j <;> rfl
      b := ![1, 0]
      c := 0 }
    (2 : ℝ) ≠ 0 ∧
      Id.run ((Plan.central [1, -1] 2).record fun y => pure (q.objective y)) =
        ([1, -4], [q.sample ![3, -1], q.sample ![-1, -1], q.sample ![1, 1], q.sample ![1, -3]]) ∧
      Id.run ((Plan.forward [1, -1] 2).record fun y => pure (q.objective y)) =
        ([3, 2], [q.sample ![1, -1], q.sample ![3, -1], q.sample ![1, 1]]) := by
  intro q
  have hunits : Pi.single 0 2 = ![(2 : ℝ), 0] ∧ Pi.single 1 2 = ![(0 : ℝ), 2] := by
    constructor <;>
    · funext i
      fin_cases i <;> rfl
  have hpoints : ![(1 : ℝ), -1] + ![2, 0] = ![3, -1] ∧ ![(1 : ℝ), -1] - ![2, 0] = ![-1, -1] ∧
      ![(1 : ℝ), -1] + ![0, 2] = ![1, 1] ∧ ![(1 : ℝ), -1] - ![0, 2] = ![1, -3] := by
    refine ⟨?_, ?_, ?_, ?_⟩ <;>
    · funext i
      fin_cases i <;> norm_num
  have hgradient : q.gradient ![1, -1] = ![1, -4] ∧ q.A 0 0 = 1 ∧ q.A 1 1 = 3 := by
    refine ⟨funext fun i => ?_, rfl, rfl⟩
    fin_cases i <;> norm_num [gradient, q, Matrix.mulVec, dotProduct]
  have hrange : List.finRange 2 = [0, 1] := rfl
  obtain ⟨hcentral, hforward⟩ := differences_exact q ![1, -1] two_ne_zero
  rw [hrange] at hcentral hforward
  simp only [List.flatMap_cons, List.flatMap_nil, List.map_cons, List.map_nil, hunits, hpoints]
    at hcentral hforward
  refine ⟨two_ne_zero, hcentral.trans ?_, hforward.trans ?_⟩
  · simp [hgradient]
  · simp [hgradient]
    norm_num

end Quadratic

end Optimum

import Mathlib.Algebra.Order.Star.Real
import Mathlib.LinearAlgebra.Matrix.PosDef
import Mathlib.Tactic.Linarith
import Mathlib.Tactic.Positivity
import Optimum.Proofs.InverseHessian.Secant

/-!
# Positive definiteness

Both update rules keep an approximation symmetric positive definite in exact arithmetic. The proof
is the same for both. Let `y` be the change of gradient, along which the rules are to be exact.
The form of the new matrix at `v` is that of the old matrix at `v - t y`, for a `t` that depends on
`v` linearly, plus a square. The first part vanishes only on the multiples of `y`, and the square is
positive there, since the pair has curvature. For `bfgs`, `t` is `sᵀv / sᵀy`; for `dfp` it is
`(By)ᵀv / yᵀBy`, so that `v - t y` is the part of `v` that is orthogonal to `y` for the old matrix.

## What is proved

* `Mat.PositiveDefinite.add`: a change that a rule gives keeps the approximation positive definite;
  `Mat.PositiveDefinite.accepts`: no pair that shows curvature is refused.
* `Mat.PositiveDefinite.follow`: so it is after any pairs, accepted or not.
* `Mat.PositiveDefinite.dot_direction_neg`: the direction is one of descent.
-/

namespace Optimum

open Matrix Scalar

/-! ### Forms -/

section Form

variable {n : Nat} {B B' : Matrix (Fin n) (Fin n) ℝ} {s y : Fin n → ℝ}

/-- A form that is positive definite on `v - t v y`, and has another part that is positive on the
multiples of `y`. -/
theorem posDef_of_split (hB : B.PosDef) (hsymm : B'.IsHermitian) {t r : (Fin n → ℝ) → ℝ}
    (hsplit : ∀ v, v ⬝ᵥ B' *ᵥ v = (v - t v • y) ⬝ᵥ B *ᵥ (v - t v • y) + r v)
    (hr : ∀ v, 0 ≤ r v) (hpos : ∀ a : ℝ, a ≠ 0 → 0 < r (a • y)) : B'.PosDef := by
  refine PosDef.of_dotProduct_mulVec_pos hsymm fun v hv => ?_
  rw [star_trivial, hsplit]
  by_cases hw : v - t v • y = 0
  · have hvy : v = t v • y := sub_eq_zero.mp hw
    have ht : t v ≠ 0 := by
      intro h
      rw [h, zero_smul] at hvy
      exact hv hvy
    have hrv : 0 < r v := by
      rw [hvy]
      exact hpos (t v) ht
    rw [hw, zero_dotProduct, zero_add]
    exact hrv
  · have hpart := hB.dotProduct_mulVec_pos hw
    rw [star_trivial] at hpart
    exact add_pos_of_pos_of_nonneg hpart (hr v)

/-- A symmetric matrix may change sides in an inner product. -/
theorem mulVec_dotProduct (hB : B.IsHermitian) (v w : Fin n → ℝ) : (B *ᵥ v) ⬝ᵥ w = v ⬝ᵥ B *ᵥ w := by
  rw [dotProduct_mulVec, ← mulVec_transpose, ← conjTranspose_eq_transpose_of_trivial, hB.eq]

theorem form_sub_smul (hB : B.IsHermitian) (v y : Fin n → ℝ) (t : ℝ) :
    (v - t • y) ⬝ᵥ B *ᵥ (v - t • y) =
      v ⬝ᵥ B *ᵥ v - 2 * t * ((B *ᵥ y) ⬝ᵥ v) + t ^ 2 * ((B *ᵥ y) ⬝ᵥ y) := by
  have h₁ : v ⬝ᵥ B *ᵥ y = (B *ᵥ y) ⬝ᵥ v := dotProduct_comm _ _
  have h₂ : y ⬝ᵥ B *ᵥ v = (B *ᵥ y) ⬝ᵥ v := (mulVec_dotProduct hB y v).symm
  have h₃ : y ⬝ᵥ B *ᵥ y = (B *ᵥ y) ⬝ᵥ y := dotProduct_comm _ _
  simp only [mulVec_sub, mulVec_smul, sub_dotProduct, dotProduct_sub, smul_dotProduct,
    dotProduct_smul, smul_eq_mul, h₁, h₂, h₃]
  ring

/-- Cauchy and Schwarz: the form of a positive definite matrix is positive where there is
curvature. -/
theorem form_pos (hB : B.PosDef) (hsy : 0 < s ⬝ᵥ y) : 0 < (B *ᵥ y) ⬝ᵥ y := by
  have hy : y ≠ 0 := by
    intro h
    rw [h, dotProduct_zero] at hsy
    exact lt_irrefl _ hsy
  have hpos := hB.dotProduct_mulVec_pos hy
  rwa [star_trivial, dotProduct_comm] at hpos

private theorem isHermitian_rankTwo (s u : Fin n → ℝ) (a c d : ℝ) :
    (rankTwo s u a c d).IsHermitian :=
  (conjTranspose_eq_transpose_of_trivial _).trans isSymm_rankTwo

theorem posDef_bfgs (hB : B.PosDef) (hsy : 0 < s ⬝ᵥ y) :
    (B + Matrix.of fun i j => (1 + (B *ᵥ y) ⬝ᵥ y / s ⬝ᵥ y) * s i * s j / s ⬝ᵥ y -
      (s i * (B *ᵥ y) j + (B *ᵥ y) i * s j) / s ⬝ᵥ y).PosDef := by
  rw [of_bfgs_eq]
  refine posDef_of_split hB (hB.isHermitian.add (isHermitian_rankTwo _ _ _ _ _))
    (t := fun v => s ⬝ᵥ v / s ⬝ᵥ y) (r := fun v => (s ⬝ᵥ v) ^ 2 / s ⬝ᵥ y) (y := y)
    (fun v => ?_) (fun v => ?_) fun a ha => ?_
  · rw [form_sub_smul hB.isHermitian, add_mulVec, dotProduct_add, form_rankTwo]
    field_simp
    ring
  · positivity
  · rw [dotProduct_smul, smul_eq_mul]
    positivity

theorem posDef_dfp (hB : B.PosDef) (hsy : 0 < s ⬝ᵥ y) :
    (B + Matrix.of fun i j => s i * s j / s ⬝ᵥ y -
      (B *ᵥ y) i * (B *ᵥ y) j / (B *ᵥ y) ⬝ᵥ y).PosDef := by
  have hyBy := form_pos hB hsy
  rw [of_dfp_eq]
  refine posDef_of_split hB (hB.isHermitian.add (isHermitian_rankTwo _ _ _ _ _))
    (t := fun v => (B *ᵥ y) ⬝ᵥ v / (B *ᵥ y) ⬝ᵥ y) (r := fun v => (s ⬝ᵥ v) ^ 2 / s ⬝ᵥ y) (y := y)
    (fun v => ?_) (fun v => ?_) fun a ha => ?_
  · rw [form_sub_smul hB.isHermitian, add_mulVec, dotProduct_add, form_rankTwo]
    field_simp
    ring
  · positivity
  · rw [dotProduct_smul, smul_eq_mul]
    positivity

end Form

/-! ### Rules -/

namespace UpdateRule

/-- The approximation after a rule has been asked to correct it: a change is added, and a pair that
is refused is skipped. -/
def follow {α : Type} [Scalar α] (rule : UpdateRule α) (b : Mat α) (pair : Vec α × Vec α) : Mat α :=
  match rule b pair.1 pair.2 with
  | .ok db => b.add db
  | .error _ => b

end UpdateRule

namespace Mat

/-- A matrix of size `n` that is symmetric and positive definite. -/
structure PositiveDefinite (n : Nat) (b : Mat ℝ) : Prop where
  /-- It is square. -/
  isSquare : b.IsSquare n
  /-- It is symmetric, and its form is positive except at zero. -/
  posDef : (b.entries n).PosDef

theorem positiveDefinite_identity (n : Nat) : (identity n : Mat ℝ).PositiveDefinite n := by
  refine ⟨isSquare_identity n, ?_⟩
  rw [entries_identity]
  exact PosDef.one

namespace PositiveDefinite

variable {n : Nat} {b db : Mat ℝ} {dx dg : Vec ℝ} {rule : UpdateRule ℝ}

theorem curvature_pos (hb : b.PositiveDefinite n) (hsizes : UpdateRule.Matching b dx dg)
    (hcurved : UpdateRule.Curved dx dg) : 0 < Vec.coords n dx ⬝ᵥ Vec.coords n dg := by
  rw [← (hsizes.products hb.isSquare).1]
  exact UpdateRule.dot_pos_of_curved hcurved

/-- Adding a matrix made of a step and an image, in coordinates. -/
theorem add_ofPairs (hb : b.PositiveDefinite n) (hsizes : UpdateRule.Matching b dx dg)
    {entry : ℝ → ℝ → ℝ → ℝ → ℝ}
    (h : (entries n b + Matrix.of fun i j => entry (Vec.coords n dx i)
      ((entries n b *ᵥ Vec.coords n dg) i) (Vec.coords n dx j)
      ((entries n b *ᵥ Vec.coords n dg) j)).PosDef) :
    (b.add (ofPairs entry dx (b.mulVec dg))).PositiveDefinite n := by
  have hsquare : (ofPairs entry dx (b.mulVec dg)).IsSquare n := hsizes.isSquare_ofPairs hb.isSquare
  refine ⟨hb.isSquare.add hsquare, ?_⟩
  rw [entries_add hb.isSquare hsquare, hsizes.entries_ofPairs hb.isSquare]
  exact h

/-- **A change keeps the approximation positive definite.** -/
theorem add (hb : b.PositiveDefinite n) (hrule : rule = UpdateRule.bfgs ∨ rule = UpdateRule.dfp)
    (h : rule b dx dg = .ok db) : (b.add db).PositiveDefinite n := by
  rcases hrule with rfl | rfl
  · obtain ⟨hsizes, hcurved, -, rfl⟩ := UpdateRule.bfgs_eq_ok_iff.mp h
    obtain ⟨hsy, hyBy⟩ := hsizes.products hb.isSquare
    refine hb.add_ofPairs hsizes ?_
    rw [hsy, hyBy]
    exact posDef_bfgs hb.posDef (hb.curvature_pos hsizes hcurved)
  · obtain ⟨hsizes, hcurved, -, -, rfl⟩ := UpdateRule.dfp_eq_ok_iff.mp h
    obtain ⟨hsy, hyBy⟩ := hsizes.products hb.isSquare
    refine hb.add_ofPairs hsizes ?_
    rw [hsy, hyBy]
    exact posDef_dfp hb.posDef (hb.curvature_pos hsizes hcurved)

/-- **A pair that shows curvature is accepted.** In particular the product by which `dfp` divides
is positive. -/
theorem accepts (hb : b.PositiveDefinite n)
    (hrule : rule = UpdateRule.bfgs ∨ rule = UpdateRule.dfp)
    (hsizes : UpdateRule.Matching b dx dg) (hcurved : UpdateRule.Curved dx dg) :
    ∃ db, rule b dx dg = .ok db := by
  rcases hrule with rfl | rfl
  · exact ⟨_, UpdateRule.bfgs_eq_ok_iff.mpr ⟨hsizes, hcurved, allFinite_real _, rfl⟩⟩
  · refine ⟨_, UpdateRule.dfp_eq_ok_iff.mpr ⟨hsizes, hcurved, ?_, allFinite_real _, rfl⟩⟩
    rw [(hsizes.products hb.isSquare).2]
    exact form_pos hb.posDef (hb.curvature_pos hsizes hcurved)

/-- **After any pairs the approximation is positive definite**, whichever are refused. -/
theorem follow (hb : b.PositiveDefinite n)
    (hrule : rule = UpdateRule.bfgs ∨ rule = UpdateRule.dfp) (pairs : List (Vec ℝ × Vec ℝ)) :
    (pairs.foldl (UpdateRule.follow rule) b).PositiveDefinite n := by
  induction pairs generalizing b with
  | nil => exact hb
  | cons pair pairs ih =>
    refine ih ?_
    unfold UpdateRule.follow
    split
    next db h => exact hb.add hrule h
    next => exact hb

/-- The direction of a quasi-Newton iteration is one of descent, unless the gradient estimate
vanishes. -/
theorem dot_direction_neg (hb : b.PositiveDefinite n) {g : Vec ℝ} (hg : g.length = n)
    (hne : ∃ x ∈ g, x ≠ 0) : Vec.dot g (b.mulVec g).neg < 0 := by
  have hu : (b.mulVec g).length = n := (length_mulVec b g).trans hb.isSquare.1
  have hpos := hb.posDef.dotProduct_mulVec_pos (Vec.coords_ne_zero hg hne)
  rw [star_trivial, ← coords_mulVec hb.isSquare hg, ← Vec.dot_eq_coords hg hu] at hpos
  rw [Vec.dot_neg_right]
  exact neg_neg_of_pos hpos

end PositiveDefinite

end Mat

end Optimum

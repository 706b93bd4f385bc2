import Mathlib.LinearAlgebra.Matrix.Symmetric
import Mathlib.Tactic.FieldSimp
import Mathlib.Tactic.Linarith
import Optimum.Proofs.InverseHessian.Rules
import Optimum.Proofs.Matrix.Exact

/-!
# The secant equation

In exact arithmetic both rules give a change of one kind. It is made of the step `s` and of the image
`u = By` of the change of gradient, as `a ssᵀ + c (suᵀ + usᵀ) + d uuᵀ`, and the three numbers are such
that it takes `y` to `s - By`. So the change is symmetric, the new matrix takes `y` to `s`, and vectors
that are orthogonal to both `s` and `u` are not affected. Nothing is asked of `B` but its size.

## What is proved

* `Corrects`: the kind of a change, with what follows of it; `UpdateRule.corrects_of_ok`: the changes of
  both rules are of that kind.
* `UpdateRule.secant_of_isSquare`: what each rule accepts, what it gives, and how it refuses.
-/

namespace Optimum

open Matrix Scalar

/-! ### Changes -/

section Changes

variable {n : ℕ} {B D : Matrix (Fin n) (Fin n) ℝ} {s u y v : Fin n → ℝ} {a c d : ℝ}

/-- The matrix `a ssᵀ + c (suᵀ + usᵀ) + d uuᵀ`. -/
def rankTwo (s u : Fin n → ℝ) (a c d : ℝ) : Matrix (Fin n) (Fin n) ℝ :=
  a • vecMulVec s s + c • (vecMulVec s u + vecMulVec u s) + d • vecMulVec u u

theorem isSymm_rankTwo : (rankTwo s u a c d).IsSymm := by
  ext i j
  simp only [rankTwo, transpose_apply, Matrix.add_apply, Matrix.smul_apply, vecMulVec_apply,
    smul_eq_mul]
  ring

theorem rankTwo_mulVec (v : Fin n → ℝ) : rankTwo s u a c d *ᵥ v =
    (a * (s ⬝ᵥ v) + c * (u ⬝ᵥ v)) • s + (c * (s ⬝ᵥ v) + d * (u ⬝ᵥ v)) • u := by
  simp only [rankTwo, add_mulVec, smul_mulVec, vecMulVec_mulVec]
  ext i
  simp only [Pi.add_apply, Pi.smul_apply, smul_eq_mul, MulOpposite.smul_eq_mul_unop,
    MulOpposite.unop_op]
  ring

/-- The form of such a matrix. -/
theorem form_rankTwo (v : Fin n → ℝ) : v ⬝ᵥ rankTwo s u a c d *ᵥ v =
    a * (s ⬝ᵥ v) ^ 2 + 2 * c * (s ⬝ᵥ v) * (u ⬝ᵥ v) + d * (u ⬝ᵥ v) ^ 2 := by
  rw [rankTwo_mulVec, dotProduct_add, dotProduct_smul, dotProduct_smul, dotProduct_comm v s,
    dotProduct_comm v u, smul_eq_mul, smul_eq_mul]
  ring

/-- A change of `B`, made of `s` and `By`, that takes `y` to `s - By`. -/
def Corrects (B : Matrix (Fin n) (Fin n) ℝ) (s y : Fin n → ℝ) (D : Matrix (Fin n) (Fin n) ℝ) : Prop :=
  ∃ a c d, D = rankTwo s (B *ᵥ y) a c d ∧ a * (s ⬝ᵥ y) + c * ((B *ᵥ y) ⬝ᵥ y) = 1 ∧
    c * (s ⬝ᵥ y) + d * ((B *ᵥ y) ⬝ᵥ y) = -1

theorem Corrects.isSymm (h : Corrects B s y D) : D.IsSymm := by
  obtain ⟨a, c, d, rfl, -, -⟩ := h
  exact isSymm_rankTwo

/-- **The secant equation.** -/
theorem Corrects.secant (h : Corrects B s y D) : (B + D) *ᵥ y = s := by
  obtain ⟨a, c, d, rfl, hs, hu⟩ := h
  rw [add_mulVec, rankTwo_mulVec, hs, hu, one_smul, neg_one_smul, add_comm s, add_neg_cancel_left]

/-- What is orthogonal to the step and to the image is not affected. -/
theorem Corrects.mulVec_eq_zero (h : Corrects B s y D) (hs : s ⬝ᵥ v = 0)
    (hu : (B *ᵥ y) ⬝ᵥ v = 0) : D *ᵥ v = 0 := by
  obtain ⟨a, c, d, rfl, -, -⟩ := h
  rw [rankTwo_mulVec, hs, hu]
  simp

/-- The entries of the Broyden-Fletcher-Goldfarb-Shanno change. -/
theorem of_bfgs_eq (s u : Fin n → ℝ) (sy yby : ℝ) :
    (Matrix.of fun i j => (1 + yby / sy) * s i * s j / sy - (s i * u j + u i * s j) / sy) =
      rankTwo s u ((1 + yby / sy) / sy) (-1 / sy) 0 := by
  ext i j
  simp only [rankTwo, of_apply, Matrix.add_apply, Matrix.smul_apply, vecMulVec_apply, smul_eq_mul]
  ring

/-- The entries of the Davidon-Fletcher-Powell change. -/
theorem of_dfp_eq (s u : Fin n → ℝ) (sy yby : ℝ) :
    (Matrix.of fun i j => s i * s j / sy - u i * u j / yby) =
      rankTwo s u (1 / sy) 0 (-1 / yby) := by
  ext i j
  simp only [rankTwo, of_apply, Matrix.add_apply, Matrix.smul_apply, vecMulVec_apply, smul_eq_mul]
  ring

theorem corrects_bfgs (hsy : s ⬝ᵥ y ≠ 0) :
    Corrects B s y (Matrix.of fun i j => (1 + (B *ᵥ y) ⬝ᵥ y / s ⬝ᵥ y) * s i * s j / s ⬝ᵥ y -
      (s i * (B *ᵥ y) j + (B *ᵥ y) i * s j) / s ⬝ᵥ y) :=
  ⟨_, _, _, of_bfgs_eq s _ _ _, by field_simp; ring, by field_simp; ring⟩

theorem corrects_dfp (hsy : s ⬝ᵥ y ≠ 0) (hyBy : (B *ᵥ y) ⬝ᵥ y ≠ 0) :
    Corrects B s y (Matrix.of fun i j => s i * s j / s ⬝ᵥ y -
      (B *ᵥ y) i * (B *ᵥ y) j / (B *ᵥ y) ⬝ᵥ y) :=
  ⟨_, _, _, of_dfp_eq s _ _ _, by field_simp; ring, by field_simp; ring⟩

end Changes

/-! ### Rules -/

namespace UpdateRule

variable {n : ℕ} {b db : Mat ℝ} {dx dg : Vec ℝ} {rule : UpdateRule ℝ}

/-- A pair that shows curvature has a positive product. -/
theorem dot_pos_of_curved (h : Curved dx dg) : 0 < Vec.dot dx dg := by
  have hdx : 0 ≤ Vec.norm dx := Real.sqrt_nonneg _
  have hdg : 0 ≤ Vec.norm dg := Real.sqrt_nonneg _
  exact lt_of_le_of_lt (mul_nonneg (mul_nonneg epsilon_real_pos.le hdx) hdg) h

/-- A pair shows curvature if its product is large beside bounds of its norms. -/
theorem curved_of_le {p q : ℝ} (hp : 0 ≤ p) (hq : 0 ≤ q) (hdx : Vec.dot dx dx ≤ p ^ 2)
    (hdg : Vec.dot dg dg ≤ q ^ 2) (h : 2⁻¹ ^ 52 * p * q < Vec.dot dx dg) : Curved dx dg := by
  have hdx : Vec.norm dx ≤ p := Real.sqrt_le_iff.mpr ⟨hp, hdx⟩
  have hdg : Vec.norm dg ≤ q := Real.sqrt_le_iff.mpr ⟨hq, hdg⟩
  have heps : (0 : ℝ) ≤ epsilon := epsilon_real_pos.le
  refine lt_of_le_of_lt ?_ h
  exact mul_le_mul (mul_le_mul_of_nonneg_left hdx heps) hdg (Real.sqrt_nonneg _)
    (mul_nonneg heps hp)

theorem matching_of_isSquare (hb : b.IsSquare n) (hx : dx.length = n) (hg : dg.length = n) :
    Matching b dx dg := ⟨hg.trans hx.symm, hx ▸ hb⟩

theorem checkFinite_real (b : Mat ℝ) (sy : ℝ) : checkFinite b sy = .ok b := by
  rw [checkFinite, if_pos b.allFinite_real]

/-- The sizes of an accepted pair are those of the matrix. -/
theorem Matching.lengths (h : Matching b dx dg) (hb : b.IsSquare n) :
    dx.length = n ∧ dg.length = n ∧ (b.mulVec dg).length = n := by
  obtain ⟨hlen, hheight, -⟩ := h
  have hdx : dx.length = n := hheight.symm.trans hb.1
  exact ⟨hdx, hlen.trans hdx, (Mat.length_mulVec b dg).trans hb.1⟩

/-- The products that the rules compute, in coordinates. -/
theorem Matching.products (h : Matching b dx dg) (hb : b.IsSquare n) :
    Vec.dot dx dg = Vec.coords n dx ⬝ᵥ Vec.coords n dg ∧
      Vec.dotBlocked (b.mulVec dg) dg =
        (b.entries n *ᵥ Vec.coords n dg) ⬝ᵥ Vec.coords n dg := by
  obtain ⟨hdx, hdg, hu⟩ := h.lengths hb
  refine ⟨Vec.dot_eq_coords hdx hdg, ?_⟩
  rw [Vec.dotBlocked_eq_dot, Vec.dot_eq_coords hu hdg, Mat.coords_mulVec hb hdg]

theorem Matching.isSquare_ofPairs (h : Matching b dx dg) (hb : b.IsSquare n)
    {entry : ℝ → ℝ → ℝ → ℝ → ℝ} : (Mat.ofPairs entry dx (b.mulVec dg)).IsSquare n := by
  obtain ⟨hheight, hwidth⟩ := sameShape_ofPairs h entry
  exact ⟨hheight.trans hb.1, hwidth.trans hb.2⟩

/-- A matrix made of a step and an image, in coordinates. -/
theorem Matching.entries_ofPairs (h : Matching b dx dg) (hb : b.IsSquare n)
    (entry : ℝ → ℝ → ℝ → ℝ → ℝ) :
    (Mat.ofPairs entry dx (b.mulVec dg)).entries n = Matrix.of fun i j =>
      entry (Vec.coords n dx i) ((b.entries n *ᵥ Vec.coords n dg) i) (Vec.coords n dx j)
        ((b.entries n *ᵥ Vec.coords n dg) j) := by
  obtain ⟨hdx, hdg, hu⟩ := h.lengths hb
  rw [Mat.entries_ofPairs _ hdx hu, Mat.coords_mulVec hb hdg]

/-- **The changes of both rules are corrections.** -/
theorem corrects_of_ok (hrule : rule = bfgs ∨ rule = dfp) (hb : b.IsSquare n)
    (h : rule b dx dg = .ok db) : db.IsSquare n ∧
      Corrects (b.entries n) (Vec.coords n dx) (Vec.coords n dg) (db.entries n) := by
  rcases hrule with rfl | rfl
  · obtain ⟨hsizes, hcurved, -, rfl⟩ := bfgs_eq_ok_iff.mp h
    obtain ⟨hsy, hyBy⟩ := hsizes.products hb
    have hpos := (dot_pos_of_curved hcurved).ne'
    refine ⟨hsizes.isSquare_ofPairs hb, ?_⟩
    rw [bfgsChange, hsizes.entries_ofPairs hb, hyBy, hsy]
    exact corrects_bfgs (hsy ▸ hpos)
  · obtain ⟨hsizes, hcurved, hyBypos, -, rfl⟩ := dfp_eq_ok_iff.mp h
    obtain ⟨hsy, hyBy⟩ := hsizes.products hb
    have hpos := (dot_pos_of_curved hcurved).ne'
    refine ⟨hsizes.isSquare_ofPairs hb, ?_⟩
    rw [dfpChange, hsizes.entries_ofPairs hb, hyBy, hsy]
    exact corrects_dfp (hsy ▸ hpos) (hyBy ▸ hyBypos.ne')

/-- The new matrix takes the change of gradient to the step. -/
theorem mulVec_add_of_ok (hrule : rule = bfgs ∨ rule = dfp) (hb : b.IsSquare n)
    (hdx : dx.length = n) (hdg : dg.length = n) (h : rule b dx dg = .ok db) :
    (b.add db).mulVec dg = dx := by
  obtain ⟨hdb, hcorrects⟩ := corrects_of_ok hrule hb h
  have hsum := hb.add hdb
  refine Vec.eq_of_coords ((Mat.length_mulVec _ dg).trans hsum.1) hdx ?_
  rw [Mat.coords_mulVec hsum hdg, Mat.entries_add hb hdb]
  exact hcorrects.secant

/-! ### Refusals -/

theorem curvature_of_not_curved (h : ¬ Curved dx dg) :
    curvature dx dg = .error (.illConditionedUpdate (Vec.dot dx dg)) := if_neg h

theorem refusal_of_bfgs (h : Matching b dx dg) {e : Failure ℝ} (he : bfgs b dx dg = .error e) :
    ¬ Curved dx dg ∧ e = .illConditionedUpdate (Vec.dot dx dg) := by
  by_cases hcurved : Curved dx dg
  · rw [bfgs_eq_ok_iff.mpr ⟨h, hcurved, Mat.allFinite_real _, rfl⟩] at he
    cases he
  · rw [bfgs, checkSizes_eq_ok_iff (u := ()).mpr h, curvature_of_not_curved hcurved] at he
    cases he
    exact ⟨hcurved, rfl⟩

theorem refusal_of_dfp (h : Matching b dx dg) {e : Failure ℝ} (he : dfp b dx dg = .error e) :
    ¬ Curved dx dg ∧ e = .illConditionedUpdate (Vec.dot dx dg) ∨
      Curved dx dg ∧ ¬ 0 < Vec.dotBlocked (b.mulVec dg) dg ∧
        e = .illConditionedUpdate (Vec.dotBlocked (b.mulVec dg) dg) := by
  by_cases hcurved : Curved dx dg
  · by_cases hpos : 0 < Vec.dotBlocked (b.mulVec dg) dg
    · rw [dfp_eq_ok_iff.mpr ⟨h, hcurved, hpos, Mat.allFinite_real _, rfl⟩] at he
      cases he
    · rw [dfp, checkSizes_eq_ok_iff (u := ()).mpr h, curvature_eq_ok_iff.mpr ⟨hcurved, rfl⟩] at he
      cases he.symm.trans (if_neg hpos)
      exact Or.inr ⟨hcurved, hpos, rfl⟩
  · rw [dfp, checkSizes_eq_ok_iff (u := ()).mpr h, curvature_of_not_curved hcurved] at he
    cases he
    exact Or.inl ⟨hcurved, rfl⟩

/-! ### Single updates -/

/-- What a rule does with a matrix of size `n` and a pair of vectors: it accepts them under a condition,
then its change is symmetric and satisfies the secant equation, and otherwise it fails in a known way. -/
structure Decides (rule : UpdateRule ℝ) (n : ℕ) (b : Mat ℝ) (dx dg : Vec ℝ) (accepted : Prop)
    (refusal : Failure ℝ → Prop) : Prop where
  /-- The condition decides. -/
  accepts : (∃ db, rule b dx dg = .ok db) ↔ accepted
  /-- The change is symmetric, and the new matrix takes the change of gradient to the step. -/
  secant : ∀ db, rule b dx dg = .ok db →
    db.IsSquare n ∧ (db.entries n).IsSymm ∧ (b.add db).mulVec dg = dx
  /-- Otherwise the rule fails as said. -/
  refuses : ∀ e, rule b dx dg = .error e → refusal e

/-- **What the update rules accept, give and refuse**, for any matrix, also one that is not symmetric.
Both ask for curvature, and the Davidon-Fletcher-Powell rule for a positive product of the change of
gradient and its image besides. The failure tells the number that was too small. -/
theorem secant_of_isSquare (hb : b.IsSquare n) (hdx : dx.length = n) (hdg : dg.length = n) :
    let sy := Vec.dot dx dg
    let yby := Vec.dot dg (b.mulVec dg)
    let curved := epsilon * Vec.norm dx * Vec.norm dg < sy
    Decides bfgs n b dx dg curved
      (fun e => ¬ curved ∧ e = .illConditionedUpdate sy) ∧
    Decides dfp n b dx dg (curved ∧ 0 < yby)
      (fun e => ¬ curved ∧ e = .illConditionedUpdate sy ∨
        curved ∧ ¬ 0 < yby ∧ e = .illConditionedUpdate yby) := by
  intro sy yby curved
  have hsizes : Matching b dx dg := matching_of_isSquare hb hdx hdg
  have hyby : Vec.dotBlocked (b.mulVec dg) dg = yby := by
    rw [Vec.dotBlocked_eq_dot, Vec.dot_comm]
  have hsecant : ∀ {rule : UpdateRule ℝ}, rule = bfgs ∨ rule = dfp → ∀ db, rule b dx dg = .ok db →
      db.IsSquare n ∧ (db.entries n).IsSymm ∧ (b.add db).mulVec dg = dx := fun hrule db h => by
    obtain ⟨hdb, hcorrects⟩ := corrects_of_ok hrule hb h
    exact ⟨hdb, hcorrects.isSymm, mulVec_add_of_ok hrule hb hdx hdg h⟩
  constructor
  · refine ⟨⟨fun ⟨db, h⟩ => (bfgs_eq_ok_iff.mp h).2.1, fun hcurved => ?_⟩, hsecant (.inl rfl),
      fun e he => refusal_of_bfgs hsizes he⟩
    exact ⟨_, bfgs_eq_ok_iff.mpr ⟨hsizes, hcurved, Mat.allFinite_real _, rfl⟩⟩
  · refine ⟨⟨fun ⟨db, h⟩ => ?_, fun ⟨hcurved, hpos⟩ => ?_⟩, hsecant (.inr rfl), fun e he => ?_⟩
    · obtain ⟨-, hcurved, hpos, -⟩ := dfp_eq_ok_iff.mp h
      exact ⟨hcurved, hyby ▸ hpos⟩
    · exact ⟨_, dfp_eq_ok_iff.mpr ⟨hsizes, hcurved, hyby ▸ hpos, Mat.allFinite_real _, rfl⟩⟩
    · have hrefusal := refusal_of_dfp hsizes he
      rwa [hyby] at hrefusal

/-- A matrix that is not symmetric, and a pair that only one of the rules accepts. -/
theorem secant_of_isSquare_shear :
    let b : Mat ℝ := ⟨2, [[1, 1], [0, -3]], by simp⟩
    let dx : Vec ℝ := [1, 0]
    let dg : Vec ℝ := [1, 1]
    b.IsSquare 2 ∧ dx.length = 2 ∧ dg.length = 2 ∧
      (∃ db, bfgs b dx dg = .ok db ∧ (db.entries 2).IsSymm ∧ (b.add db).mulVec dg = dx) ∧
      dfp b dx dg = .error (.illConditionedUpdate (-1)) := by
  intro b dx dg
  have hb : b.IsSquare 2 := ⟨rfl, rfl⟩
  have hsy : Vec.dot dx dg = 1 := by simp [dx, dg]
  have hyby : Vec.dot dg (b.mulVec dg) = -1 := by norm_num [b, dg, Mat.mulVec]
  have hcurved : Curved dx dg := by
    refine curved_of_le zero_le_one zero_le_two ?_ ?_ ?_ <;> norm_num [dx, dg]
  obtain ⟨hbfgs, hdfp⟩ := secant_of_isSquare hb (show dx.length = 2 from rfl) (show dg.length = 2 from rfl)
  obtain ⟨db, hdb⟩ := hbfgs.accepts.mpr hcurved
  obtain ⟨-, hsymm, hsecant⟩ := hbfgs.secant db hdb
  refine ⟨hb, rfl, rfl, ⟨db, hdb, hsymm, hsecant⟩, ?_⟩
  cases hresult : dfp b dx dg with
  | ok db =>
    obtain ⟨-, hpos⟩ := hdfp.accepts.mp ⟨db, hresult⟩
    rw [hyby] at hpos
    linarith
  | error e =>
    obtain ⟨hnot, -⟩ | ⟨-, -, rfl⟩ := hdfp.refuses e hresult
    · exact absurd hcurved hnot
    · rw [hyby]

end UpdateRule

end Optimum

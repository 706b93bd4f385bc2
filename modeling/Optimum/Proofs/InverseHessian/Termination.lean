import Optimum.Proofs.InverseHessian.PositiveDefinite
import Optimum.Proofs.Vector.Euclidean

/-!
# Quadratic termination

On a quadratic function with Hessian `A` the gradient changes by `y = As` along a step `s`. If every
step is conjugate to all others, `sᵢᵀAsⱼ = 0`, then an update leaves the secant equations of all earlier
steps intact: the earlier changes of gradient are orthogonal to the new step, and so are the earlier
steps to the new change of gradient, to which they are taken by the approximation. So the approximation
takes all changes of gradient to their steps, and after `n` steps it is the inverse of `A`.

## What is proved

* `Corrects.keeps`: a change leaves a secant equation intact.
* `Mat.Remembers.correct` is the step lemma, and `Mat.Remembers.of_foldlM` the induction.
* `Mat.inverse_of_conjugate`: after any number of accepted conjugate steps all secant equations hold, and
  after `n` the approximation is the inverse.
-/

namespace Optimum

open Matrix Scalar

/-! ### Conjugate directions -/

section Conjugate

variable {n : ℕ} {A B D : Matrix (Fin n) (Fin n) ℝ} {s v : Fin n → ℝ}

/-- **A change leaves the secant equation of a conjugate step intact.** -/
theorem Corrects.keeps (h : Corrects B s (A *ᵥ s) D) (hA : A.IsHermitian) (hB : B.IsHermitian)
    (hv : B *ᵥ (A *ᵥ v) = v) (hconj : v ⬝ᵥ A *ᵥ s = 0) : (B + D) *ᵥ (A *ᵥ v) = v := by
  have hs : s ⬝ᵥ A *ᵥ v = 0 := by
    rw [← mulVec_dotProduct hA, dotProduct_comm, hconj]
  have hu : (B *ᵥ (A *ᵥ s)) ⬝ᵥ A *ᵥ v = 0 := by
    rw [mulVec_dotProduct hB, hv, dotProduct_comm, hconj]
  rw [add_mulVec, h.mulVec_eq_zero hs hu, add_zero, hv]

/-- Conjugate directions, as many as there are dimensions, determine a matrix. -/
theorem mul_eq_one_of_conjugate (hA : A.PosDef) {v : Fin n → Fin n → ℝ} (hne : ∀ i, v i ≠ 0)
    (hconj : ∀ i j, i ≠ j → v i ⬝ᵥ A *ᵥ v j = 0) (hfix : ∀ i, B *ᵥ (A *ᵥ v i) = v i) :
    B * A = 1 := by
  -- the matrix `V` whose columns are the directions has an inverse, as `VᵀAV` is diagonal
  let V : Matrix (Fin n) (Fin n) ℝ := (Matrix.of v)ᵀ
  have hdiagonal : Vᵀ * (A * V) = diagonal fun i => v i ⬝ᵥ A *ᵥ v i := by
    ext i j
    change v i ⬝ᵥ A *ᵥ v j = _
    by_cases hij : i = j
    · rw [hij, diagonal_apply_eq]
    · rw [diagonal_apply_ne _ hij, hconj i j hij]
  have hdet : V.det ≠ 0 := by
    intro h
    have hzero := congrArg det hdiagonal
    rw [det_mul, det_mul, h, mul_zero, mul_zero, det_diagonal] at hzero
    obtain ⟨i, -, hi⟩ := Finset.prod_eq_zero_iff.mp hzero.symm
    exact (hA.dotProduct_mulVec_pos (hne i)).ne' hi
  have hunit : IsUnit V := (isUnit_iff_isUnit_det V).mpr (isUnit_iff_ne_zero.mpr hdet)
  refine hunit.mul_right_cancel ?_
  ext i j
  rw [one_mul, Matrix.mul_assoc]
  exact congrFun (hfix j) i

end Conjugate

/-! ### Accepted steps -/

/-- The approximation after a pair that the rule accepts: the change is added. -/
def UpdateRule.correct {α : Type} [Scalar α] (rule : UpdateRule α) (b : Mat α) (dx dg : Vec α) :
    Except (Failure α) (Mat α) := do
  let db ← rule b dx dg
  pure (b.add db)

theorem UpdateRule.correct_eq_ok_iff {α : Type} [Scalar α] {rule : UpdateRule α} {b b' : Mat α}
    {dx dg : Vec α} : rule.correct b dx dg = .ok b' ↔ ∃ db, rule b dx dg = .ok db ∧ b' = b.add db := by
  unfold correct
  cases rule b dx dg with
  | error e => exact ⟨nofun, nofun⟩
  | ok db =>
    constructor
    · intro h
      exact ⟨db, rfl, (Except.ok.inj h).symm⟩
    · rintro ⟨_, ⟨⟩, rfl⟩
      rfl

namespace Mat

variable {n : ℕ} {a b b' : Mat ℝ} {dx : Vec ℝ} {earlier steps : List (Vec ℝ)} {rule : UpdateRule ℝ}

/-- An approximation that satisfies the secant equations of some steps on a quadratic function with
Hessian `a`. -/
structure Remembers (n : ℕ) (a b : Mat ℝ) (steps : List (Vec ℝ)) : Prop where
  /-- It is positive definite. -/
  definite : b.PositiveDefinite n
  /-- The steps are of its size. -/
  lengths : ∀ dx ∈ steps, dx.length = n
  /-- It takes each change of gradient to its step. -/
  secants : ∀ dx ∈ steps, b.mulVec (a.mulVec dx) = dx

/-- **An accepted step is remembered, and so are all steps to which it is conjugate.** -/
theorem Remembers.correct (h : Remembers n a b earlier) (ha : a.PositiveDefinite n)
    (hrule : rule = UpdateRule.bfgs ∨ rule = UpdateRule.dfp) (hdx : dx.length = n)
    (hconj : ∀ v ∈ earlier, Vec.dot v (a.mulVec dx) = 0)
    (hok : rule.correct b dx (a.mulVec dx) = .ok b') : Remembers n a b' (earlier ++ [dx]) := by
  obtain ⟨db, hdb, rfl⟩ := UpdateRule.correct_eq_ok_iff.mp hok
  have himage : ∀ {v : Vec ℝ}, v.length = n →
      Vec.coords n (a.mulVec v) = a.entries n *ᵥ Vec.coords n v := coords_mulVec ha.isSquare
  have hlength : ∀ v : Vec ℝ, (a.mulVec v).length = n := fun v =>
    (length_mulVec a v).trans ha.isSquare.1
  obtain ⟨hsquare, hcorrects⟩ := UpdateRule.corrects_of_ok hrule h.definite.isSquare hdb
  rw [himage hdx] at hcorrects
  refine ⟨h.definite.add hrule hdb,
    List.forall_mem_append.mpr ⟨h.lengths, List.forall_mem_singleton.mpr hdx⟩,
    List.forall_mem_append.mpr ⟨fun v hv => ?_, List.forall_mem_singleton.mpr ?_⟩⟩
  · have hvn := h.lengths v hv
    have hsum := h.definite.isSquare.add hsquare
    have hsecant := congrArg (Vec.coords n) (h.secants v hv)
    have hconj := hconj v hv
    rw [coords_mulVec h.definite.isSquare (hlength v), himage hvn] at hsecant
    rw [Vec.dot_eq_coords hvn (hlength dx), himage hdx] at hconj
    refine Vec.eq_of_coords ((length_mulVec _ _).trans hsum.1) hvn ?_
    rw [coords_mulVec hsum (hlength v), entries_add h.definite.isSquare hsquare, himage hvn]
    exact hcorrects.keeps ha.posDef.isHermitian h.definite.posDef.isHermitian hsecant hconj
  · exact UpdateRule.mulVec_add_of_ok hrule h.definite.isSquare hdx (hlength dx) hdb

/-- **After any number of accepted steps that are conjugate to one another all are remembered.** -/
theorem Remembers.of_foldlM (h : Remembers n a b earlier) (ha : a.PositiveDefinite n)
    (hrule : rule = UpdateRule.bfgs ∨ rule = UpdateRule.dfp) (hlengths : ∀ dx ∈ steps, dx.length = n)
    (hconj : (earlier ++ steps).Pairwise fun v dx => Vec.dot v (a.mulVec dx) = 0)
    (hok : steps.foldlM (fun b dx => rule.correct b dx (a.mulVec dx)) b = .ok b') :
    Remembers n a b' (earlier ++ steps) := by
  induction steps generalizing b earlier with
  | nil =>
    cases hok
    simpa using h
  | cons dx steps ih =>
    obtain ⟨hdx, hlengths⟩ := List.forall_mem_cons.mp hlengths
    have hconj₁ : ∀ v ∈ earlier, Vec.dot v (a.mulVec dx) = 0 := fun v hv =>
      (List.pairwise_append.mp hconj).2.2 v hv dx List.mem_cons_self
    rw [List.append_cons] at hconj ⊢
    rw [List.foldlM_cons] at hok
    cases hfirst : rule.correct b dx (a.mulVec dx) with
    | error e =>
      rw [hfirst] at hok
      cases hok
    | ok b₁ =>
      rw [hfirst] at hok
      exact ih (h.correct ha hrule hdx hconj₁ hfirst) hlengths hconj hok

/-- **After as many steps as there are dimensions only the inverse remembers all of them.** -/
theorem Remembers.mul_eq_one (h : Remembers n a b steps) (ha : a.PositiveDefinite n)
    (hne : ∀ dx ∈ steps, ¬ dx.IsZero)
    (hconj : steps.Pairwise fun dx dx' => Vec.dot dx (a.mulVec dx') = 0) (hn : steps.length = n) :
    b.entries n * a.entries n = 1 := by
  subst hn
  let v (i : Fin steps.length) : Fin steps.length → ℝ := Vec.coords steps.length steps[i]
  have hlength : ∀ i : Fin steps.length, steps[i].length = steps.length := fun i =>
    h.lengths _ (List.getElem_mem i.2)
  have himage : ∀ i : Fin steps.length, (a.mulVec steps[i]).length = steps.length := fun i =>
    (length_mulVec a _).trans ha.isSquare.1
  have hlater : ∀ i j : Fin steps.length, i < j → v i ⬝ᵥ a.entries _ *ᵥ v j = 0 := by
    intro i j hij
    have hzero := List.pairwise_iff_getElem.mp hconj i j i.2 j.2 hij
    change Vec.dot steps[i] (a.mulVec steps[j]) = 0 at hzero
    rwa [Vec.dot_eq_coords (hlength i) (himage j), coords_mulVec ha.isSquare (hlength j)] at hzero
  refine mul_eq_one_of_conjugate ha.posDef (v := v) (fun i => ?_) (fun i j hij => ?_) fun i => ?_
  · have hsome : ∃ x ∈ steps[i], x ≠ 0 := by
      simpa [Vec.IsZero] using hne _ (List.getElem_mem i.2)
    exact Vec.coords_ne_zero (hlength i) hsome
  · rcases lt_or_gt_of_ne hij with hlt | hlt
    · exact hlater i j hlt
    · rw [← mulVec_dotProduct ha.posDef.isHermitian, dotProduct_comm]
      exact hlater j i hlt
  · have hsecant : Vec.coords steps.length (b.mulVec (a.mulVec steps[i])) = v i :=
      congrArg _ (h.secants _ (List.getElem_mem i.2))
    rwa [coords_mulVec h.definite.isSquare (himage i), coords_mulVec ha.isSquare (hlength i)]
      at hsecant

/-- **Quadratic termination.** On a quadratic function with Hessian `a`, from any symmetric positive
definite approximation, both rules satisfy the secant equations of all steps that they have accepted, if
these are conjugate to one another. So after `n` steps the approximation is the inverse of the Hessian. -/
theorem inverse_of_conjugate (ha : a.PositiveDefinite n) (hb : b.PositiveDefinite n)
    (hrule : rule = UpdateRule.bfgs ∨ rule = UpdateRule.dfp)
    (hsteps : ∀ dx ∈ steps, dx.length = n ∧ ¬ dx.IsZero)
    (hconj : steps.Pairwise fun dx dx' => Vec.dot dx (a.mulVec dx') = 0)
    (hok : steps.foldlM (fun b dx => rule.correct b dx (a.mulVec dx)) b = .ok b') :
    (∀ dx ∈ steps, b'.mulVec (a.mulVec dx) = dx) ∧
      (steps.length = n → b'.entries n * a.entries n = 1 ∧ a.entries n * b'.entries n = 1) := by
  have hstart : Remembers n a b [] := ⟨hb, nofun, nofun⟩
  have hend : Remembers n a b' steps :=
    hstart.of_foldlM ha hrule (fun dx hdx => (hsteps dx hdx).1) hconj hok
  refine ⟨hend.secants, fun hn => ?_⟩
  have hinverse := hend.mul_eq_one ha (fun dx hdx => (hsteps dx hdx).2) hconj hn
  exact ⟨hinverse, mul_eq_one_comm.mp hinverse⟩

/-- Two steps on a quadratic function of two variables, with the Davidon-Fletcher-Powell rule. -/
theorem inverse_of_conjugate_plane :
    let a : Mat ℝ := ⟨2, [[2, 1], [1, 2]], by simp⟩
    let steps : List (Vec ℝ) := [[1, 0], [1, -2]]
    a.PositiveDefinite 2 ∧ (identity 2 : Mat ℝ).PositiveDefinite 2 ∧
      (∀ dx ∈ steps, dx.length = 2 ∧ ¬ dx.IsZero) ∧
      steps.Pairwise (fun dx dx' => Vec.dot dx (a.mulVec dx') = 0) ∧
      ∃ b', steps.foldlM (fun b dx => UpdateRule.dfp.correct b dx (a.mulVec dx)) (identity 2) = .ok b' ∧
        b'.entries 2 * a.entries 2 = 1 := by
  intro a steps
  have ha : a.PositiveDefinite 2 := by
    refine ⟨⟨rfl, rfl⟩, PosDef.of_dotProduct_mulVec_pos ?_ fun v hv => ?_⟩
    · ext i j
      fin_cases i <;> fin_cases j <;> rfl
    · have hform : star v ⬝ᵥ a.entries 2 *ᵥ v = v 0 ^ 2 + v 1 ^ 2 + (v 0 + v 1) ^ 2 := by
        simp [dotProduct, Matrix.mulVec, Fin.sum_univ_two, entries, Vec.coords, a]
        ring
      rw [hform]
      rcases Function.ne_iff.mp hv with ⟨i, hi⟩
      fin_cases i <;> have := sq_pos_of_ne_zero hi <;> positivity
  have hb : (identity 2 : Mat ℝ).PositiveDefinite 2 := positiveDefinite_identity 2
  have hsteps : ∀ dx ∈ steps, dx.length = 2 ∧ ¬ dx.IsZero := by
    simp [steps, Vec.IsZero]
  have hconj : steps.Pairwise fun dx dx' => Vec.dot dx (a.mulVec dx') = 0 := by
    simp [steps, a, mulVec]
  have hfirst : UpdateRule.Curved [1, 0] (a.mulVec [1, 0]) := by
    refine UpdateRule.curved_of_le zero_le_one zero_le_three ?_ ?_ ?_ <;> norm_num [a, mulVec]
  have hsecond : UpdateRule.Curved [1, -2] (a.mulVec [1, -2]) := by
    refine UpdateRule.curved_of_le zero_le_three zero_le_three ?_ ?_ ?_ <;> norm_num [a, mulVec]
  obtain ⟨db, hdb⟩ := hb.accepts (.inr rfl) (UpdateRule.matching_of_isSquare hb.isSquare rfl rfl) hfirst
  have hb₁ := hb.add (.inr rfl) hdb
  obtain ⟨db', hdb'⟩ :=
    hb₁.accepts (.inr rfl) (UpdateRule.matching_of_isSquare hb₁.isSquare rfl rfl) hsecond
  have hok : steps.foldlM (fun b dx => UpdateRule.dfp.correct b dx (a.mulVec dx)) (identity 2) =
      .ok (((identity 2).add db).add db') := by
    have hfirst := UpdateRule.correct_eq_ok_iff.mpr ⟨db, hdb, rfl⟩
    have hsecond := UpdateRule.correct_eq_ok_iff.mpr ⟨db', hdb', rfl⟩
    rw [List.foldlM_cons, hfirst]
    change (UpdateRule.dfp.correct _ _ _ >>= pure) = _
    rw [hsecond]
    rfl
  obtain ⟨-, hinverse⟩ := inverse_of_conjugate ha hb (.inr rfl) hsteps hconj hok
  exact ⟨ha, hb, hsteps, hconj, _, hok, (hinverse rfl).1⟩

end Mat

end Optimum

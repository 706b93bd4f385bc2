import Mathlib.Algebra.BigOperators.Fin
import Mathlib.Data.List.GetD
import Mathlib.Data.Matrix.Mul
import Optimum.Matrix
import Optimum.Proofs.Vector.Exact

/-!
# Matrices of exact scalars

Vectors of length `n` as functions on `Fin n`, and square matrices of size `n` as matrices over
`Fin n`. The operations of the library are those of linear algebra there, as long as the sizes
match.
-/

namespace Optimum

open Matrix

namespace Vec

variable {n : Nat} {a b : Vec ℝ}

/-- The coordinates of a vector. -/
def coords (n : Nat) (a : Vec ℝ) : Fin n → ℝ := fun i => a.getD i 0

theorem coords_apply {i : Fin n} (hi : (i : Nat) < a.length) : coords n a i = a[(i : Nat)] := by
  simp [coords, hi]

theorem dot_eq_coords (ha : a.length = n) (hb : b.length = n) :
    dot a b = coords n a ⬝ᵥ coords n b := by
  induction n generalizing a b with
  | zero =>
    rw [List.eq_nil_of_length_eq_zero ha, dot_nil_left]
    exact (Fin.sum_univ_zero _).symm
  | succ n ih =>
    obtain ⟨x, a, rfl⟩ := List.exists_cons_of_length_eq_add_one ha
    obtain ⟨y, b, rfl⟩ := List.exists_cons_of_length_eq_add_one hb
    rw [dot_cons, ih (Nat.succ.inj ha) (Nat.succ.inj hb), dotProduct, dotProduct,
      Fin.sum_univ_succ]
    rfl

/-- Vectors of length `n` with the same coordinates are the same. -/
theorem eq_of_coords (ha : a.length = n) (hb : b.length = n) (h : coords n a = coords n b) :
    a = b := by
  refine List.ext_getElem (ha.trans hb.symm) fun i hi hi' => ?_
  have hcoord := congrFun h ⟨i, ha ▸ hi⟩
  rwa [coords_apply hi, coords_apply hi'] at hcoord

/-- Only the zero vector has all coordinates zero. -/
theorem coords_ne_zero (ha : a.length = n) (h : ∃ x ∈ a, x ≠ 0) : coords n a ≠ 0 := by
  obtain ⟨x, hx, hne⟩ := h
  obtain ⟨i, hi, rfl⟩ := List.mem_iff_getElem.mp hx
  intro hzero
  have := congrFun hzero ⟨i, ha ▸ hi⟩
  rw [coords_apply hi] at this
  exact hne this

end Vec

namespace Mat

variable {n : Nat} {b c : Mat ℝ}

@[simp] theorem allFinite_real (b : Mat ℝ) : b.allFinite = true :=
  List.all_eq_true.mpr fun row _ => Scalar.allFinite_real row

/-- The entries of a matrix. -/
def entries (n : Nat) (b : Mat ℝ) : Matrix (Fin n) (Fin n) ℝ :=
  Matrix.of fun i => Vec.coords n (b.rows.getD i [])

/-- Each index is that of a row. -/
theorem IsSquare.lt_length (hb : b.IsSquare n) (i : Fin n) : (i : Nat) < b.rows.length := by
  rw [← height, hb.1]
  exact i.2

theorem IsSquare.length_row (hb : b.IsSquare n) {i : Nat} (hi : i < b.rows.length) :
    b.rows[i].length = n :=
  (b.uniform _ (List.getElem_mem hi)).trans hb.2

theorem coords_mulVec (hb : b.IsSquare n) {v : Vec ℝ} (hv : v.length = n) :
    Vec.coords n (b.mulVec v) = entries n b *ᵥ Vec.coords n v := by
  funext i
  have hi := hb.lt_length i
  have hi' : (i : Nat) < (b.mulVec v).length := (length_mulVec b v).symm ▸ hi
  rw [Vec.coords_apply hi', Matrix.mulVec]
  simp only [mulVec, List.getElem_map, Vec.dotBlocked_eq_dot]
  rw [Vec.dot_eq_coords (hb.length_row hi) hv]
  simp [entries, Matrix.of_apply, hi]

theorem entries_add (hb : b.IsSquare n) (hc : c.IsSquare n) :
    entries n (b.add c) = entries n b + entries n c := by
  funext i j
  have hi := hb.lt_length i
  have hi' := hc.lt_length i
  rw [add_of_sameShape (hb.sameShape hc)]
  simp [entries, Vec.coords, addEntries, Vec.add, hi, hi', hb.length_row hi, hc.length_row hi']

theorem entries_identity : entries n (identity n : Mat ℝ) = 1 := by
  funext i j
  simp [entries, Vec.coords, identity, ofFn, Matrix.one_apply, Fin.ext_iff]

theorem mulVec_identity {v : Vec ℝ} (hv : v.length = n) : (identity n).mulVec v = v := by
  refine Vec.eq_of_coords ((length_mulVec _ v).trans (isSquare_identity n).1) hv ?_
  rw [coords_mulVec (isSquare_identity n) hv, entries_identity, one_mulVec]

/-- A change that is zero changes nothing. -/
theorem add_cleared (b : Mat ℝ) : b.add b.cleared = b := by
  rw [add_of_sameShape b.sameShape_cleared]
  obtain ⟨width, rows, huniform⟩ := b
  have hrow : ∀ row : Vec ℝ, row.add (List.replicate row.length 0) = row := by
    intro row
    induction row with
    | nil => rfl
    | cons v row ih => simpa [Vec.add, List.replicate_succ] using ih
  simp [addEntries, cleared, map, List.zipWith_map_right, hrow]

theorem entries_ofPairs (entry : ℝ → ℝ → ℝ → ℝ → ℝ) {x u : Vec ℝ} (hx : x.length = n)
    (hu : u.length = n) : entries n (ofPairs entry x u) = Matrix.of fun i j =>
      entry (Vec.coords n x i) (Vec.coords n u i) (Vec.coords n x j) (Vec.coords n u j) := by
  funext i j
  simp [entries, Vec.coords, ofPairs, hx, hu]

end Mat

end Optimum

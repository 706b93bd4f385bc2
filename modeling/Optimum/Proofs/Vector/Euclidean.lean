import Mathlib.Analysis.InnerProductSpace.PiL2
import Optimum.Proofs.Matrix.Exact

/-!
# Vectors as points of Euclidean space

Vectors of length `n` over the real numbers are points of Euclidean space (`Vec.point`), and norm
and distance are those of the space. So norms scale, distances satisfy the triangle inequality, and
a point on a line is as far from the point it starts at as the parameter says. Distances between
vectors of different lengths are over the elements that both have; fewer elements are no further
apart, so the triangle inequality holds there too, as long as the point between is long enough.
-/

namespace Optimum

namespace Vec

variable {n : Nat} {a b c : Vec ℝ}

/-- A vector of length `n` as a point of Euclidean space. -/
noncomputable def point (n : Nat) (a : Vec ℝ) : EuclideanSpace ℝ (Fin n) :=
  WithLp.toLp _ (coords n a)

theorem point_apply {i : Fin n} (hi : (i : Nat) < a.length) : point n a i = a[(i : Nat)] :=
  coords_apply hi

/-! ### Operations -/

theorem point_neg (ha : a.length = n) : point n (neg a) = -point n a := by
  ext i
  simp [point_apply, ha, neg]

theorem point_sub (ha : a.length = n) (hb : b.length = n) :
    point n (sub a b) = point n a - point n b := by
  ext i
  simp [point_apply, ha, hb, sub]

theorem point_scale (ha : a.length = n) (c : ℝ) :
    point n (a.map (c * ·)) = c • point n a := by
  ext i
  simp [point_apply, ha]

theorem point_scaleDown (ha : a.length = n) (c : ℝ) :
    point n (scaleDown a c) = c⁻¹ • point n a := by
  ext i
  simp [point_apply, ha, scaleDown, div_eq_inv_mul]

theorem point_set (ha : a.length = n) {i : Nat} (hi : i < n) (v : ℝ) :
    point n (a.set i v) = point n a + EuclideanSpace.single ⟨i, hi⟩ (v - a[i]) := by
  ext j
  have hj : (j : Nat) < a.length := ha ▸ j.2
  rw [point_apply (by simpa using hj), List.getElem_set]
  by_cases hij : i = j
  · subst hij
    simp [point_apply hj]
  · have hne : (⟨i, hi⟩ : Fin n) ≠ j := fun h => hij (congrArg Fin.val h)
    simp [point_apply hj, hij, hne]

/-! ### Norms and distances -/

theorem norm_eq (ha : a.length = n) : norm a = ‖point n a‖ := by
  rw [norm, dot_eq_coords ha ha, EuclideanSpace.norm_eq]
  simp [dotProduct, point, sq]

theorem dot_self_eq (ha : a.length = n) : dot a a = ‖point n a‖ ^ 2 := by
  rw [← norm_eq ha]
  exact (Real.sq_sqrt (dot_self_nonneg a)).symm

theorem distance_eq_norm_sub (a b : Vec ℝ) : distance a b = norm (sub a b) := by
  have hsum : List.zipWith (fun ai bi => (ai - bi) * (ai - bi)) a b =
      List.zipWith (· * ·) (sub a b) (sub a b) := by
    rw [sub, List.zipWith_self, List.map_zipWith]
  rw [distance, norm, dot, hsum]

theorem distance_eq (ha : a.length = n) (hb : b.length = n) :
    distance a b = dist (point n a) (point n b) := by
  have hlen : (sub a b).length = n := by rw [length_sub, ha, hb, Nat.min_self]
  rw [distance_eq_norm_sub, norm_eq hlen, point_sub ha hb, dist_eq_norm]

/-- Fewer elements have no greater norm. -/
theorem norm_take_le (a : Vec ℝ) (m : ℕ) : norm (a.take m) ≤ norm a := by
  refine Real.sqrt_le_sqrt ?_
  rw [dot, dot, Scalar.total_real, Scalar.total_real, ← List.take_zipWith]
  refine (List.take_sublist m _).sum_le_sum ?_
  rw [List.zipWith_self]
  exact List.forall_mem_map.mpr fun v _ => mul_self_nonneg v

theorem distance_take_le (a b : Vec ℝ) (m : ℕ) :
    distance (a.take m) (b.take m) ≤ distance a b := by
  rw [distance_eq_norm_sub, distance_eq_norm_sub, sub, ← List.take_zipWith]
  exact norm_take_le _ m

/-- **The triangle inequality**, where a distance is over the elements that both vectors have: the
point between two others must have an element wherever both of them have one. -/
theorem distance_triangle (h : min a.length c.length ≤ b.length) :
    distance a c ≤ distance a b + distance b c := by
  have htake : distance a c =
      distance (a.take (min a.length c.length)) (c.take (min a.length c.length)) := by
    rw [distance, distance, ← List.zipWith_eq_zipWith_take_min]
  have hlen : ∀ v : Vec ℝ, min a.length c.length ≤ v.length →
      (v.take (min a.length c.length)).length = min a.length c.length := fun v hv => by
    rw [List.length_take, Nat.min_eq_left hv]
  have ha := hlen a (Nat.min_le_left _ _)
  have hb := hlen b h
  have hc := hlen c (Nat.min_le_right _ _)
  calc distance a c
      = dist (point _ (a.take _)) (point _ (c.take _)) := htake.trans (distance_eq ha hc)
    _ ≤ dist (point _ (a.take _)) (point _ (b.take _)) +
          dist (point _ (b.take _)) (point _ (c.take _)) := dist_triangle _ _ _
    _ = distance (a.take _) (b.take _) + distance (b.take _) (c.take _) := by
        rw [distance_eq ha hb, distance_eq hb hc]
    _ ≤ distance a b + distance b c := add_le_add (distance_take_le _ _ _) (distance_take_le _ _ _)

/-- A point on a line is as far from the start as the parameter says, by the length of the direction
in the elements that the start has too. -/
theorem distance_along (x s : Vec ℝ) (t : ℝ) :
    distance (along x s t) x = |t| * norm (s.take x.length) := by
  have hsub : sub (along x s t) x = (s.take x.length).map (t * ·) := by
    induction x generalizing s with
    | nil => rfl
    | cons v x ih =>
      cases s with
      | nil => rfl
      | cons w s =>
        have := ih s
        simp_all [sub, along]
  have hlen : ((s.take x.length).map (t * ·)).length = (s.take x.length).length := List.length_map _
  rw [distance_eq_norm_sub, hsub, norm_eq hlen, norm_eq rfl, point_scale rfl, norm_smul,
    Real.norm_eq_abs]

/-- A change of one coordinate moves a point by that change. -/
theorem distance_set {i : Nat} (hi : i < a.length) (v : ℝ) :
    distance (a.set i v) a = |v - a[i]| := by
  rw [distance_eq (List.length_set) rfl, point_set rfl hi, dist_self_add_left,
    PiLp.norm_single, Real.norm_eq_abs]

/-! ### Unit vectors -/

/-- All elements are zero. -/
def IsZero (a : Vec ℝ) : Prop := ∀ v ∈ a, v = 0

theorem norm_nonneg (a : Vec ℝ) : 0 ≤ norm a := Real.sqrt_nonneg _

theorem norm_eq_zero_iff (a : Vec ℝ) : norm a = 0 ↔ a.IsZero := by
  rw [norm_eq rfl, norm_eq_zero]
  constructor
  · intro h v hv
    obtain ⟨i, hi, rfl⟩ := List.mem_iff_getElem.mp hv
    have := congrFun (congrArg WithLp.ofLp h) ⟨i, hi⟩
    rwa [point_apply hi] at this
  · intro h
    ext i
    rw [point_apply i.2]
    exact h _ (List.getElem_mem _)

/-- What normalising a vector gives: a vector of unit length, unless it is zero. -/
theorem norm_normalize (h : ¬ a.IsZero) : norm (normalize a) = 1 := by
  have hne : norm a ≠ 0 := fun h₀ => h ((norm_eq_zero_iff a).mp h₀)
  have hpos : 0 < norm a := lt_of_le_of_ne (norm_nonneg a) hne.symm
  rw [normalize, if_pos hpos, norm_eq (length_scaleDown a _), point_scaleDown rfl, norm_smul,
    ← norm_eq rfl, Real.norm_eq_abs, abs_of_pos (inv_pos.mpr hpos), inv_mul_cancel₀ hne]

theorem normalize_of_isZero (h : a.IsZero) : normalize a = a := by
  rw [normalize, if_neg]
  rw [(norm_eq_zero_iff a).mpr h]
  exact lt_irrefl 0

end Vec

end Optimum

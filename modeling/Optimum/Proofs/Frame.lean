import Optimum.Proofs.Vector.Euclidean

/-!
# Frames of reference

Coordinates in another order and from another origin. A `Frame` says which coordinate each
coordinate comes from, and how far it is shifted. A point takes part in the shift; a difference of
points does not, nor does a gradient. So there are two relations between what is seen in the old and
in the new frame, `Frame.Moves` of points and `Frame.Turns` of directions, and for matrices there is
`Frame.TurnsMatrix`.

## What is proved

Every operation of the library on vectors and matrices respects the relations, and lengths and inner
products are the same in both frames.
-/

namespace Optimum

open Scalar Matrix

/-! ### Coordinates -/

namespace Vec

variable {n : ℕ} {a b : Vec ℝ}

@[simp] theorem coords_ofFn (v : Fin n → ℝ) : coords n (List.ofFn v) = v := by
  funext i
  simp [coords]

theorem coords_map (f : ℝ → ℝ) (ha : a.length = n) (i : Fin n) :
    coords n (a.map f) i = f (coords n a i) := by
  have hi : (i : ℕ) < a.length := ha ▸ i.2
  rw [coords_apply hi, coords_apply ((List.length_map f).symm ▸ hi), List.getElem_map]

theorem coords_zipWith (f : ℝ → ℝ → ℝ) (ha : a.length = n) (hb : b.length = n) (i : Fin n) :
    coords n (List.zipWith f a b) i = f (coords n a i) (coords n b i) := by
  have hi : (i : ℕ) < a.length := ha ▸ i.2
  have hi' : (i : ℕ) < b.length := hb ▸ i.2
  have hlength : (i : ℕ) < (List.zipWith f a b).length := by
    rw [List.length_zipWith, ha, hb, min_self]
    exact i.2
  rw [coords_apply hi, coords_apply hi', coords_apply hlength, List.getElem_zipWith]

theorem coords_set (ha : a.length = n) (i j : Fin n) (v : ℝ) :
    coords n (a.set i v) j = if i = j then v else coords n a j := by
  have hj : (j : ℕ) < a.length := ha ▸ j.2
  rw [coords_apply hj, coords_apply ((List.length_set).symm ▸ hj), List.getElem_set]
  simp only [Fin.ext_iff]

end Vec

/-- Coordinates in another order and from another origin. -/
structure Frame (n : ℕ) where
  /-- The coordinate that a coordinate comes from. -/
  turn : Equiv.Perm (Fin n)
  /-- How far a coordinate is shifted. -/
  shift : Fin n → ℝ

namespace Frame

variable {n : ℕ} {F : Frame n}

/-- A point in the new frame. -/
def apply (F : Frame n) (x : Vec ℝ) : Vec ℝ :=
  List.ofFn fun i => Vec.coords n x (F.turn i) + F.shift i

/-- The point of the old frame that is seen at `y`. -/
def back (F : Frame n) (y : Vec ℝ) : Vec ℝ :=
  List.ofFn fun i => Vec.coords n y (F.turn.symm i) - F.shift (F.turn.symm i)

/-! ### Points and directions -/

/-- The point `x` is seen at `y`. -/
structure Moves (F : Frame n) (x y : Vec ℝ) : Prop where
  /-- The dimension of the old point. -/
  length : x.length = n
  /-- The dimension of the new one. -/
  length' : y.length = n
  /-- The coordinates. -/
  coords (i : Fin n) : Vec.coords n y i = Vec.coords n x (F.turn i) + F.shift i

/-- The direction `a` is seen as `b`. -/
structure Turns (F : Frame n) (a b : Vec ℝ) : Prop where
  /-- The dimension of the old direction. -/
  length : a.length = n
  /-- The dimension of the new one. -/
  length' : b.length = n
  /-- The coordinates. -/
  coords (i : Fin n) : Vec.coords n b i = Vec.coords n a (F.turn i)

variable {x y x' y' a b a' b' : Vec ℝ}

theorem moves_apply (F : Frame n) (hx : x.length = n) : F.Moves x (F.apply x) where
  length := hx
  length' := List.length_ofFn
  coords i := by rw [apply, Vec.coords_ofFn]

theorem Moves.eq_apply (h : F.Moves x y) : y = F.apply x := by
  have happly := F.moves_apply h.length
  exact Vec.eq_of_coords h.length' happly.length' (funext fun i =>
    (h.coords i).trans (happly.coords i).symm)

/-- What is seen at `y` is the point that was there. -/
theorem Moves.back_eq (h : F.Moves x y) : F.back y = x := by
  refine Vec.eq_of_coords List.length_ofFn h.length (funext fun i => ?_)
  rw [back, Vec.coords_ofFn, h.coords, Equiv.apply_symm_apply, add_sub_cancel_right]

theorem Moves.isEmpty_eq (h : F.Moves x y) : y.isEmpty = x.isEmpty := by
  rw [Bool.eq_iff_iff, List.isEmpty_iff_length_eq_zero, List.isEmpty_iff_length_eq_zero, h.length,
    h.length']

/-- A coordinate of a point is changed. -/
theorem Moves.set (h : F.Moves x y) (i : Fin n) (v : ℝ) :
    F.Moves (x.set (F.turn i) v) (y.set i (v + F.shift i)) where
  length := (List.length_set).trans h.length
  length' := (List.length_set).trans h.length'
  coords j := by
    rw [Vec.coords_set h.length', Vec.coords_set h.length, h.coords]
    by_cases hij : i = j
    · rw [if_pos hij, if_pos (congrArg F.turn hij), hij]
    · rw [if_neg hij, if_neg fun hturn => hij (F.turn.injective hturn)]

/-! ### Operations -/

theorem Turns.map (h : F.Turns a b) (f : ℝ → ℝ) : F.Turns (a.map f) (b.map f) where
  length := (List.length_map f).trans h.length
  length' := (List.length_map f).trans h.length'
  coords i := by rw [Vec.coords_map f h.length', Vec.coords_map f h.length, h.coords]

theorem Turns.zipWith (h : F.Turns a b) (h' : F.Turns a' b') (f : ℝ → ℝ → ℝ) :
    F.Turns (List.zipWith f a a') (List.zipWith f b b') where
  length := by rw [List.length_zipWith, h.length, h'.length, min_self]
  length' := by rw [List.length_zipWith, h.length', h'.length', min_self]
  coords i := by
    rw [Vec.coords_zipWith f h.length' h'.length', Vec.coords_zipWith f h.length h'.length,
      h.coords, h'.coords]

theorem Turns.neg (h : F.Turns a b) : F.Turns a.neg b.neg := h.map _

theorem Turns.sub (h : F.Turns a b) (h' : F.Turns a' b') : F.Turns (a.sub a') (b.sub b') :=
  h.zipWith h' _

/-- A difference of points is a direction. -/
theorem Moves.sub (h : F.Moves x y) (h' : F.Moves x' y') : F.Turns (x.sub x') (y.sub y') where
  length := by rw [Vec.length_sub, h.length, h'.length, min_self]
  length' := by rw [Vec.length_sub, h.length', h'.length', min_self]
  coords i := by
    rw [Vec.sub, Vec.sub, Vec.coords_zipWith _ h.length' h'.length',
      Vec.coords_zipWith _ h.length h'.length, h.coords, h'.coords, add_sub_add_right_eq_sub]

theorem Moves.along (h : F.Moves x y) (h' : F.Turns a b) (t : ℝ) :
    F.Moves (x.along a t) (y.along b t) where
  length := Vec.length_along_eq h.length h'.length t
  length' := Vec.length_along_eq h.length' h'.length' t
  coords i := by
    rw [Vec.along, Vec.along, Vec.coords_zipWith _ h.length' h'.length',
      Vec.coords_zipWith _ h.length h'.length, h.coords, h'.coords, add_right_comm]

/-! ### Lengths and inner products -/

/-- An inner product does not depend on the order of the coordinates. -/
theorem Turns.dot (h : F.Turns a b) (h' : F.Turns a' b') : Vec.dot b b' = Vec.dot a a' := by
  rw [Vec.dot_eq_coords h.length' h'.length', Vec.dot_eq_coords h.length h'.length]
  simp only [dotProduct, h.coords, h'.coords]
  exact Equiv.sum_comp F.turn fun i => Vec.coords n a i * Vec.coords n a' i

theorem Turns.norm (h : F.Turns a b) : Vec.norm b = Vec.norm a := congrArg sqrt (h.dot h)

theorem Moves.distance (h : F.Moves x y) (h' : F.Moves x' y') :
    Vec.distance y y' = Vec.distance x x' := by
  rw [Vec.distance_eq_norm_sub, Vec.distance_eq_norm_sub, (h.sub h').norm]

theorem Turns.normalize (h : F.Turns a b) : F.Turns a.normalize b.normalize := by
  rw [Vec.normalize, Vec.normalize, h.norm]
  split
  · exact h.map _
  · exact h

/-! ### Matrices -/

/-- The matrix `b` is seen as `c`. -/
structure TurnsMatrix (F : Frame n) (b c : Mat ℝ) : Prop where
  /-- The size of the old matrix. -/
  isSquare : b.IsSquare n
  /-- The size of the new one. -/
  isSquare' : c.IsSquare n
  /-- The entries. -/
  entries (i j : Fin n) : Mat.entries n c i j = Mat.entries n b (F.turn i) (F.turn j)

variable {B C B' C' : Mat ℝ}

theorem turnsMatrix_identity (F : Frame n) : F.TurnsMatrix (.identity n) (.identity n) where
  isSquare := Mat.isSquare_identity n
  isSquare' := Mat.isSquare_identity n
  entries i j := by
    simp only [Mat.entries_identity, Matrix.one_apply, F.turn.injective.eq_iff]

theorem TurnsMatrix.add (h : F.TurnsMatrix B C) (h' : F.TurnsMatrix B' C') :
    F.TurnsMatrix (B.add B') (C.add C') where
  isSquare := h.isSquare.add h'.isSquare
  isSquare' := h.isSquare'.add h'.isSquare'
  entries i j := by
    rw [Mat.entries_add h.isSquare' h'.isSquare', Mat.entries_add h.isSquare h'.isSquare,
      Matrix.add_apply, Matrix.add_apply, h.entries, h'.entries]

theorem TurnsMatrix.mulVec (h : F.TurnsMatrix B C) (h' : F.Turns a b) :
    F.Turns (B.mulVec a) (C.mulVec b) where
  length := (Mat.length_mulVec B a).trans h.isSquare.1
  length' := (Mat.length_mulVec C b).trans h.isSquare'.1
  coords i := by
    rw [Mat.coords_mulVec h.isSquare' h'.length', Mat.coords_mulVec h.isSquare h'.length]
    simp only [Matrix.mulVec, dotProduct, h.entries, h'.coords]
    exact Equiv.sum_comp F.turn fun j => Mat.entries n B (F.turn i) j * Vec.coords n a j

theorem Turns.ofPairs (h : F.Turns a b) (h' : F.Turns a' b') (entry : ℝ → ℝ → ℝ → ℝ → ℝ) :
    F.TurnsMatrix (.ofPairs entry a a') (.ofPairs entry b b') where
  isSquare := by
    constructor
    · rw [Mat.height_ofPairs, h.length, h'.length, min_self]
    · rw [Mat.width_ofPairs, h.length, h'.length, min_self]
  isSquare' := by
    constructor
    · rw [Mat.height_ofPairs, h.length', h'.length', min_self]
    · rw [Mat.width_ofPairs, h.length', h'.length', min_self]
  entries i j := by
    rw [Mat.entries_ofPairs entry h.length' h'.length',
      Mat.entries_ofPairs entry h.length h'.length]
    simp only [Matrix.of_apply, h.coords, h'.coords]

end Frame

end Optimum

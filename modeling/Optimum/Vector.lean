import Optimum.Scalar

/-!
# Vectors

Design vectors, gradients and residuals are lists of scalars.  An operation on two vectors
pairs their elements from the front and stops where the shorter one ends.

Two inner products are kept apart, because they add in different orders: `dot` adds the
products one by one from the left, while `dotBlocked`, the one used in products with
matrices, keeps eight partial sums and joins them at the end.  Over an exact field they
agree.
-/

namespace Optimum

open Scalar

/-- A vector: its elements in order. -/
abbrev Vec (α : Type) := List α

namespace Vec

variable {α : Type} [Scalar α]

/-! ### Element by element -/

/-- The sum `a + b`. -/
def add (a b : Vec α) : Vec α := List.zipWith (· + ·) a b

/-- The difference `a - b`. -/
def sub (a b : Vec α) : Vec α := List.zipWith (· - ·) a b

/-- The opposite `-a`. -/
def neg (a : Vec α) : Vec α := a.map (- ·)

/-- The point `x + t s`, at parameter `t` on the line through `x` along `s`. -/
def along (x s : Vec α) (t : α) : Vec α := List.zipWith (fun xi si => xi + t * si) x s

/-- The vector divided by a scalar. -/
def scaleDown (a : Vec α) (c : α) : Vec α := a.map (· / c)

/-! ### Products and norms -/

/-- The inner product, summed from the left. -/
def dot (a b : Vec α) : α := total (List.zipWith (· * ·) a b)

/-- The Euclidean norm. -/
def norm (a : Vec α) : α := sqrt (dot a a)

/-- The Euclidean distance. -/
def distance (a b : Vec α) : α :=
  sqrt (total (List.zipWith (fun ai bi => (ai - bi) * (ai - bi)) a b))

/-- The largest absolute value of an element, zero for the empty vector. -/
def normInf (a : Vec α) : α := a.foldl (fun m v => larger m (magnitude v)) 0

/-- The vector of unit length along `a`; one whose norm is not positive stays as it is. -/
def normalize (a : Vec α) : Vec α :=
  if 0 < norm a then scaleDown a (norm a) else a

/-! ### The blocked inner product -/

/-- Eight partial sums. -/
structure Lanes (α : Type) where
  /-- Partial sum of elements 0, 8, 16, … -/
  p0 : α
  /-- Partial sum of elements 1, 9, 17, … -/
  p1 : α
  /-- Partial sum of elements 2, 10, 18, … -/
  p2 : α
  /-- Partial sum of elements 3, 11, 19, … -/
  p3 : α
  /-- Partial sum of elements 4, 12, 20, … -/
  p4 : α
  /-- Partial sum of elements 5, 13, 21, … -/
  p5 : α
  /-- Partial sum of elements 6, 14, 22, … -/
  p6 : α
  /-- Partial sum of elements 7, 15, 23, … -/
  p7 : α

/-- Eight empty sums. -/
def Lanes.zero : Lanes α := ⟨0, 0, 0, 0, 0, 0, 0, 0⟩

/-- The partial sums joined: lanes four apart are paired, and the pairs added in order. -/
def Lanes.join (l : Lanes α) : α :=
  0 + (l.p0 + l.p4) + (l.p1 + l.p5) + (l.p2 + l.p6) + (l.p3 + l.p7)

/-- Adds products eight at a time into the lanes, and the fewer than eight that remain
one by one onto the joined sum. -/
def Lanes.absorb (l : Lanes α) : List α → α
  | c0 :: c1 :: c2 :: c3 :: c4 :: c5 :: c6 :: c7 :: rest =>
    Lanes.absorb ⟨l.p0 + c0, l.p1 + c1, l.p2 + c2, l.p3 + c3, l.p4 + c4, l.p5 + c5, l.p6 + c6,
      l.p7 + c7⟩ rest
  | rest => rest.foldl (· + ·) l.join

/-- The inner product with eight partial sums. -/
def dotBlocked (a b : Vec α) : α := Lanes.zero.absorb (List.zipWith (· * ·) a b)

/-! ### Lengths -/

@[simp] theorem length_add (a b : Vec α) : (add a b).length = min a.length b.length := by simp [add]

@[simp] theorem length_sub (a b : Vec α) : (sub a b).length = min a.length b.length := by simp [sub]

@[simp] theorem length_neg (a : Vec α) : (neg a).length = a.length := by simp [neg]

@[simp] theorem length_along (x s : Vec α) (t : α) :
    (along x s t).length = min x.length s.length := by simp [along]

/-- A point on a line has the dimension of the line. -/
theorem length_along_eq {x s : Vec α} {n : Nat} (hx : x.length = n) (hs : s.length = n) (t : α) :
    (along x s t).length = n := by
  rw [length_along, hx, hs, Nat.min_self]

@[simp] theorem length_scaleDown (a : Vec α) (c : α) : (scaleDown a c).length = a.length := by
  simp [scaleDown]

@[simp] theorem length_normalize (a : Vec α) : (normalize a).length = a.length := by
  unfold normalize
  split <;> simp

end Vec

end Optimum

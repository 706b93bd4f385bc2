import Optimum.Vector

/-!
# Matrices

A matrix is the list of its rows, all of one length, together with that length, so that a
matrix without rows still has a width.  Products with a vector use the blocked inner product
of `Optimum.Vector`.
-/

namespace Optimum

open Scalar

/-- A matrix, row by row. -/
structure Mat (α : Type) where
  /-- The number of columns. -/
  width : Nat
  /-- The rows from the top. -/
  rows : List (Vec α)
  /-- Every row has an entry for each column. -/
  uniform : ∀ row ∈ rows, row.length = width

namespace Mat

variable {α : Type}

/-- The number of rows. -/
def height (b : Mat α) : Nat := b.rows.length

/-- Whether the matrix has `n` rows and `n` columns. -/
def IsSquare (b : Mat α) (n : Nat) : Prop := b.height = n ∧ b.width = n

instance (b : Mat α) (n : Nat) : Decidable (b.IsSquare n) :=
  inferInstanceAs (Decidable (_ ∧ _))

/-- Whether two matrices have as many rows and as many columns. -/
def SameShape (b c : Mat α) : Prop := b.height = c.height ∧ b.width = c.width

theorem IsSquare.sameShape {b c : Mat α} {n : Nat} (hb : b.IsSquare n) (hc : c.IsSquare n) :
    c.SameShape b := ⟨hc.1.trans hb.1.symm, hc.2.trans hb.2.symm⟩

theorem SameShape.isSquare {b c : Mat α} {n : Nat} (h : c.SameShape b) (hb : b.IsSquare n) :
    c.IsSquare n := ⟨h.1.trans hb.1, h.2.trans hb.2⟩

/-- Whether two matrices have a sum: they have as many rows, or one of them has a single row, and the
same of columns. -/
def Addable (b c : Mat α) : Prop :=
  (b.height = c.height ∨ b.height = 1 ∨ c.height = 1) ∧
    (b.width = c.width ∨ b.width = 1 ∨ c.width = 1)

instance (b c : Mat α) : Decidable (b.Addable c) := inferInstanceAs (Decidable (_ ∧ _))

/-- The matrix with the given numbers of rows and columns and the given entries. -/
def ofFn (height width : Nat) (entry : Nat → Nat → α) : Mat α where
  width := width
  rows := (List.range height).map fun i => (List.range width).map (entry i)
  uniform := by simp

/-- The square matrix whose entry in row `i` and column `j` is `entry xᵢ uᵢ xⱼ uⱼ`. -/
def ofPairs (entry : α → α → α → α → α) (x u : Vec α) : Mat α where
  width := min x.length u.length
  rows := List.zipWith (fun xi ui => List.zipWith (entry xi ui) x u) x u
  uniform := by
    intro row h
    obtain ⟨i, hi, rfl⟩ := List.mem_iff_getElem.mp h
    simp

/-- Every entry is changed by `f`. -/
def map (f : α → α) (b : Mat α) : Mat α where
  width := b.width
  rows := b.rows.map fun row => row.map f
  uniform := by
    intro row h
    obtain ⟨r, hr, rfl⟩ := List.mem_map.mp h
    simpa using b.uniform r hr

/-- A list of one element, repeated to length `n`; any other list as it is. -/
def stretch {β : Type} (n : Nat) : List β → List β
  | [a] => List.replicate n a
  | l => l

theorem length_stretch {β : Type} (n : Nat) (l : List β) :
    (stretch n l).length = if l.length = 1 then n else l.length := by
  unfold stretch
  split
  next => simp
  next l hl =>
    rw [if_neg]
    intro hone
    obtain ⟨a, rfl⟩ := List.length_eq_one_iff.mp hone
    exact hl a rfl

@[simp] theorem stretch_length {β : Type} (l : List β) : stretch l.length l = l := by
  unfold stretch
  split <;> rfl

/-- The matrix in a sum with one of `height` rows and `width` columns: a single row or column is
repeated. -/
def stretchTo (b : Mat α) (height width : Nat) : Mat α where
  width := if b.width = 1 then width else b.width
  rows := stretch height (b.rows.map (stretch width))
  uniform := by
    have hrow : ∀ row ∈ b.rows.map (stretch width),
        row.length = if b.width = 1 then width else b.width := by
      intro row h
      obtain ⟨r, hr, rfl⟩ := List.mem_map.mp h
      rw [length_stretch, b.uniform r hr]
    intro row h
    unfold stretch at h
    split at h
    next r heq =>
      obtain ⟨-, rfl⟩ := List.mem_replicate.mp h
      exact hrow row (heq ▸ List.mem_singleton_self row)
    next => exact hrow row h

@[simp] theorem height_stretchTo (b : Mat α) (m n : Nat) :
    (b.stretchTo m n).height = if b.height = 1 then m else b.height := by
  rw [height, stretchTo, length_stretch, List.length_map]
  rfl

/-- For a sum with a matrix of the same shape nothing is repeated. -/
@[simp] theorem stretchTo_self (b : Mat α) : b.stretchTo b.height b.width = b := by
  obtain ⟨width, rows, huniform⟩ := b
  have hrows : rows.map (stretch width) = rows := by
    refine (List.map_congr_left fun row hrow => ?_).trans (List.map_id rows)
    rw [← huniform row hrow, stretch_length]
    rfl
  simp [stretchTo, height, hrows]

@[simp] theorem height_ofFn (m n : Nat) (entry : Nat → Nat → α) :
    (ofFn m n entry).height = m := by simp [ofFn, height]

@[simp] theorem width_ofFn (m n : Nat) (entry : Nat → Nat → α) :
    (ofFn m n entry).width = n := rfl

@[simp] theorem height_ofPairs (entry : α → α → α → α → α) (x u : Vec α) :
    (ofPairs entry x u).height = min x.length u.length := by simp [ofPairs, height]

@[simp] theorem width_ofPairs (entry : α → α → α → α → α) (x u : Vec α) :
    (ofPairs entry x u).width = min x.length u.length := rfl

variable [Scalar α]

/-- The identity matrix of size `n`. -/
def identity (n : Nat) : Mat α := ofFn n n fun i j => if i = j then 1 else 0

/-- The matrix of the same shape with all entries zero. -/
def cleared (b : Mat α) : Mat α := b.map fun _ => 0

/-- The sum entry by entry, of two matrices of the same shape. -/
def addEntries (b c : Mat α) : Mat α where
  width := min b.width c.width
  rows := List.zipWith Vec.add b.rows c.rows
  uniform := by
    intro row h
    obtain ⟨i, hi, rfl⟩ := List.mem_iff_getElem.mp h
    simp only [List.length_zipWith] at hi
    simp [b.uniform _ (List.getElem_mem (show i < b.rows.length by omega)),
      c.uniform _ (List.getElem_mem (show i < c.rows.length by omega))]

/-- The sum of two matrices.  A single row is added to every row of the other matrix, and a single
column to every column.  Two matrices that do not fit together in this way have no sum, and a
program that asks for it stops; the first one stands here in its place. -/
def add (b c : Mat α) : Mat α :=
  if b.Addable c then
    (b.stretchTo c.height c.width).addEntries (c.stretchTo b.height b.width)
  else b

/-- The product with a column vector that has an element for each column.  Any other vector has no
product with the matrix, and a program that asks for it stops; here the longer one of a row and the
vector is cut. -/
def mulVec (b : Mat α) (v : Vec α) : Vec α := b.rows.map fun row => Vec.dotBlocked row v

/-- Whether every entry is finite. -/
def allFinite (b : Mat α) : Bool := b.rows.all Scalar.allFinite

/-! ### Shapes -/

@[simp] theorem length_mulVec (b : Mat α) (v : Vec α) : (b.mulVec v).length = b.height := by
  simp [mulVec, height]

theorem isSquare_identity (n : Nat) : (identity n : Mat α).IsSquare n :=
  ⟨height_ofFn n n _, rfl⟩

@[simp] theorem height_addEntries (b c : Mat α) :
    (b.addEntries c).height = min b.height c.height := by simp [addEntries, height]

@[simp] theorem width_addEntries (b c : Mat α) :
    (b.addEntries c).width = min b.width c.width := rfl

theorem sameShape_cleared (b : Mat α) : b.cleared.SameShape b := ⟨List.length_map _, rfl⟩

theorem add_of_sameShape {b c : Mat α} (h : c.SameShape b) : b.add c = b.addEntries c := by
  obtain ⟨hheight, hwidth⟩ := h
  have hsum : b.Addable c := ⟨.inl hheight.symm, .inl hwidth.symm⟩
  have hc : c.stretchTo b.height b.width = c := by rw [← hheight, ← hwidth, stretchTo_self]
  rw [add, if_pos hsum, hc, hheight, hwidth, stretchTo_self]

/-- A sum with a matrix of the same shape has that shape. -/
theorem SameShape.add {b c : Mat α} (h : c.SameShape b) : (b.add c).SameShape b := by
  obtain ⟨hheight, hwidth⟩ := h
  rw [add_of_sameShape ⟨hheight, hwidth⟩]
  constructor
  · rw [height_addEntries, hheight, Nat.min_self]
  · rw [width_addEntries, hwidth, Nat.min_self]

/-- A sum has as many rows as the first matrix, unless that has a single row, which is repeated. -/
theorem height_add (b c : Mat α) :
    (b.add c).height = b.height ∨ b.height = 1 ∧ (b.add c).height = c.height := by
  unfold Mat.add
  split
  next hsum =>
    have hheight := hsum.1
    rw [height_addEntries, height_stretchTo, height_stretchTo]
    split <;> split <;> omega
  next => exact .inl rfl

theorem IsSquare.add {b c : Mat α} {n : Nat} (hb : b.IsSquare n) (hc : c.IsSquare n) :
    (b.add c).IsSquare n := (hb.sameShape hc).add.isSquare hb

end Mat

end Optimum

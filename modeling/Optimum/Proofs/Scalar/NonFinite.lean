import Optimum.Scalar.Binary64

/-!
# Values that are not finite

An undefined value, and what is computed from a value that is not finite by an addition, a
subtraction, a multiplication or by dividing it, is not finite. So sums and difference quotients
pass on the values that they are made of. This is all that the propagation of failures through the
solvers depends on, and it holds of double-precision numbers by the rules of IEEE 754.
-/

namespace Optimum

open Scalar

/-- Scalars whose undefined value is not finite, and whose arithmetic passes on values that are
not. -/
class PassesNonFinite (α : Type) [Scalar α] : Prop where
  /-- An undefined value is not finite. -/
  isFinite_undefined : isFinite (undefined : α) = false
  /-- A sum is finite only if both of its parts are. -/
  finite_of_add {a b : α} : isFinite (a + b) = true → isFinite a = true ∧ isFinite b = true
  /-- A difference is finite only if both of its parts are. -/
  finite_of_sub {a b : α} : isFinite (a - b) = true → isFinite a = true ∧ isFinite b = true
  /-- A product is finite only if both of its factors are. -/
  finite_of_mul {a b : α} : isFinite (a * b) = true → isFinite a = true ∧ isFinite b = true
  /-- A quotient is finite only if its numerator is. -/
  finite_of_div {a b : α} : isFinite (a / b) = true → isFinite a = true

namespace Scalar

variable {α : Type} [Scalar α] [PassesNonFinite α]

/-- A sum is finite only if every value of the list is. -/
theorem allFinite_of_total {xs : List α} (h : isFinite (total xs) = true) :
    allFinite xs = true := by
  have hfold : ∀ (xs : List α) (s : α), isFinite (xs.foldl (· + ·) s) = true →
      isFinite s = true ∧ allFinite xs = true := by
    intro xs
    induction xs with
    | nil => exact fun s hs => ⟨hs, rfl⟩
    | cons x xs ih =>
      intro s hs
      obtain ⟨hsx, hxs⟩ := ih (s + x) hs
      obtain ⟨hs, hx⟩ := PassesNonFinite.finite_of_add hsx
      exact ⟨hs, by rw [allFinite_cons, hx, hxs]; rfl⟩
  exact (hfold xs _ h).2

end Scalar

/-! ### Double-precision numbers -/

namespace Binary64

open Float.Model Float.Model.UnpackedFloat

/-- A representation whose exponent bits are all set is not one of a finite value. -/
theorem isFinite_unpack {spec : Format} {b : BitVec spec.numBits}
    (h : unpackExponent b = -1#_) : (UnpackedFloat.unpack spec b).isFinite = false := by
  change (if unpackExponent b = -1#_ then if unpackMantissa b = 0#_ then infinity _ else notANumber
    else _).isFinite = false
  rw [if_pos h]
  split <;> rfl

/-- A value that is not finite is not finite in its representation either. -/
theorem isFinite_unpack_pack {spec : Format} {v : UnpackedFloat} (h : v.isFinite = false) :
    (UnpackedFloat.unpack spec (UnpackedFloat.pack spec v)).isFinite = false := by
  cases v with
  | infinity s => exact isFinite_unpack unpackExponent_packComponents
  | notANumber => exact isFinite_unpack unpackExponent_packComponents
  | zero s => cases h
  | finite s m e hm => cases h

/-- A sum of unpacked numbers is finite only if both are. -/
theorem finite_of_add_unpacked {spec : Format} {v w : UnpackedFloat}
    (h : (UnpackedFloat.add spec v w).isFinite = true) :
    v.isFinite = true ∧ w.isFinite = true := by
  have hinfinite : ∀ s s',
      (UnpackedFloat.add spec (infinity s) (infinity s')).isFinite = false := by
    intro s s'
    change (if s == s' then infinity s else notANumber).isFinite = false
    split <;> rfl
  cases v <;> cases w
  case infinity.infinity s s' => exact absurd h (Bool.eq_false_iff.mp (hinfinite s s'))
  all_goals first | exact ⟨rfl, rfl⟩ | cases h

/-- A difference of unpacked numbers is finite only if both are. -/
theorem finite_of_sub_unpacked {spec : Format} {v w : UnpackedFloat}
    (h : (UnpackedFloat.sub spec v w).isFinite = true) :
    v.isFinite = true ∧ w.isFinite = true := by
  have hinfinite : ∀ s s',
      (UnpackedFloat.sub spec (infinity s) (infinity s')).isFinite = false := by
    intro s s'
    change (if s == -s' then infinity s else notANumber).isFinite = false
    split <;> rfl
  cases v <;> cases w
  case infinity.infinity s s' => exact absurd h (Bool.eq_false_iff.mp (hinfinite s s'))
  all_goals first | exact ⟨rfl, rfl⟩ | cases h

theorem finite_of_mul_unpacked {spec : Format} {v w : UnpackedFloat}
    (h : (UnpackedFloat.mul spec v w).isFinite = true) :
    v.isFinite = true ∧ w.isFinite = true := by
  cases v <;> cases w <;> first | exact ⟨rfl, rfl⟩ | cases h

theorem finite_of_div_unpacked {spec : Format} {v w : UnpackedFloat}
    (h : (UnpackedFloat.div spec v w).isFinite = true) : v.isFinite = true := by
  cases v <;> cases w <;> first | rfl | cases h

/-- What an operation packs is finite only if it was before. -/
theorem finite_of_pack {v : UnpackedFloat}
    (h : (Float.ofModel (Float.Model.pack v)).isFinite = true) : v.isFinite = true := by
  rcases hv : v.isFinite with _ | _
  · have hpack : (UnpackedFloat.unpack Format.binary64
        (UnpackedFloat.pack Format.binary64 v)).isFinite = false := isFinite_unpack_pack hv
    exact absurd h (Bool.eq_false_iff.mp hpack)
  · rfl

end Binary64

instance : PassesNonFinite Float where
  isFinite_undefined := by decide
  finite_of_add h := Binary64.finite_of_add_unpacked (Binary64.finite_of_pack h)
  finite_of_sub h := Binary64.finite_of_sub_unpacked (Binary64.finite_of_pack h)
  finite_of_mul h := Binary64.finite_of_mul_unpacked (Binary64.finite_of_pack h)
  finite_of_div h := Binary64.finite_of_div_unpacked (Binary64.finite_of_pack h)

end Optimum

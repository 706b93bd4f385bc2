import Mathlib.Data.Prod.Lex
import Mathlib.Order.Defs.Unbundled
import Optimum.Proofs.Scalar.Exact
import Optimum.Scalar.Binary64

/-!
# The order of numbers

Comparison of double-precision numbers is not a total order: it is false on a value that is not a
number, and blind to the sign of zero. But it is transitive, and of two values that are numbers one
is at most the other. Every number has a place in a linear order, by its kind and sign first, then by
its exponent, then by its mantissa, and a comparison is that of the places.

`OrdersNumbers` says this much of scalars. What is proved from it holds in double precision and in
exact arithmetic.
-/

namespace Optimum

/-! ### Scalars -/

/-- A value is a number: it equals itself. -/
def Scalar.IsNumber {α : Type} [Scalar α] (a : α) : Prop := (a == a) = true

open Scalar

instance {α : Type} [Scalar α] (a : α) : Decidable (IsNumber a) := inferInstanceAs (Decidable (_ = _))

/-- Scalars whose numbers are totally ordered. Of values that are not numbers nothing is said but
that they are not finite. -/
class OrdersNumbers (α : Type) [Scalar α] : Prop extends IsTrans α (· ≤ ·) where
  /-- Of two numbers one is at most the other. -/
  total {a b : α} : IsNumber a → IsNumber b → a ≤ b ∨ b ≤ a
  /-- A value is less than another if it is at most that one, and not the other way round. -/
  lt_iff {a b : α} : a < b ↔ a ≤ b ∧ ¬ b ≤ a
  /-- A finite value is a number. -/
  isNumber_of_isFinite {a : α} : isFinite a = true → IsNumber a

namespace OrdersNumbers

variable {α : Type} [Scalar α] [OrdersNumbers α] {a b c : α}

theorem le_self (h : IsNumber a) : a ≤ a := (total h h).elim id id

theorem le_trans (hab : a ≤ b) (hbc : b ≤ c) : a ≤ c := IsTrans.trans a b c hab hbc

theorem le_of_lt (h : a < b) : a ≤ b := (lt_iff.mp h).1

theorem lt_of_lt_of_le (hab : a < b) (hbc : b ≤ c) : a < c :=
  lt_iff.mpr ⟨le_trans (le_of_lt hab) hbc, fun hca => (lt_iff.mp hab).2 (le_trans hbc hca)⟩

theorem not_lt_of_le (h : a ≤ b) : ¬ b < a := fun hlt => (lt_iff.mp hlt).2 h

theorem lt_of_not_le (ha : IsNumber a) (hb : IsNumber b) (h : ¬ a ≤ b) : b < a :=
  lt_iff.mpr ⟨(total ha hb).resolve_left h, h⟩

theorem le_of_not_lt (ha : IsNumber a) (hb : IsNumber b) (h : ¬ a < b) : b ≤ a := by
  by_contra hba
  exact h (lt_of_not_le hb ha hba)

end OrdersNumbers

theorem isNumber_real (x : ℝ) : IsNumber x := decide_eq_true rfl

/-- The real numbers are totally ordered. -/
instance : OrdersNumbers ℝ where
  trans _ _ _ := le_trans
  total _ _ := le_total _ _
  lt_iff := lt_iff_le_not_ge
  isNumber_of_isFinite _ := isNumber_real _

/-! ### Places -/

namespace Binary64

open Float.Model Float.Model.UnpackedFloat

/-- A place in the linear order of the numbers: kind, exponent, mantissa. -/
abbrev Place := ℤ ×ₗ ℤ ×ₗ ℤ

/-- The place of given kind, exponent and mantissa. -/
def Place.of (kind e m : ℤ) : Place := toLex (kind, toLex (e, m))

theorem Place.of_le_of_iff {k e m k' e' m' : ℤ} :
    Place.of k e m ≤ Place.of k' e' m' ↔ k < k' ∨ k = k' ∧ (e < e' ∨ e = e' ∧ m ≤ m') := by
  simp only [Place.of, Prod.Lex.toLex_le_toLex]

theorem Place.of_lt_of_iff {k e m k' e' m' : ℤ} :
    Place.of k e m < Place.of k' e' m' ↔ k < k' ∨ k = k' ∧ (e < e' ∨ e = e' ∧ m < m') := by
  simp only [Place.of, Prod.Lex.toLex_lt_toLex]

/-- The place of an unpacked number. -/
def place? : UnpackedFloat → Option Place
  | notANumber => none
  | infinity .negative => some (.of (-2) 0 0)
  | finite .negative m e _ => some (.of (-1) (-e) (-m))
  | zero _ => some (.of 0 0 0)
  | finite .positive m e _ => some (.of 1 e m)
  | infinity .positive => some (.of 2 0 0)

/-- Exponents are compared first, then mantissas. -/
theorem isLE_then_iff {e e' : ℤ} {m m' : ℕ} :
    ((compare e e').then (compare m m')).isLE = true ↔ e < e' ∨ e = e' ∧ m ≤ m' := by
  rcases lt_trichotomy e e' with h | rfl | h
  · simp [compare_lt_iff_lt.mpr h, h]
  · simp [Nat.isLE_compare]
  · simp [compare_gt_iff_gt.mpr h, h.not_gt, h.ne']

theorem isGE_then_iff {e e' : ℤ} {m m' : ℕ} :
    ((compare e e').then (compare m m')).isGE = true ↔ e' < e ∨ e = e' ∧ m' ≤ m := by
  rcases lt_trichotomy e e' with h | rfl | h
  · simp [compare_lt_iff_lt.mpr h, h.not_gt, h.ne]
  · simp [Nat.isGE_compare]
  · simp [compare_gt_iff_gt.mpr h, h]

theorem then_eq_lt_iff {e e' : ℤ} {m m' : ℕ} :
    (compare e e').then (compare m m') = .lt ↔ e < e' ∨ e = e' ∧ m < m' := by
  rcases lt_trichotomy e e' with h | rfl | h
  · simp [compare_lt_iff_lt.mpr h, h]
  · simp [compare_lt_iff_lt]
  · simp [compare_gt_iff_gt.mpr h, h.not_gt, h.ne']

theorem then_eq_gt_iff {e e' : ℤ} {m m' : ℕ} :
    (compare e e').then (compare m m') = .gt ↔ e' < e ∨ e = e' ∧ m' < m := by
  rcases lt_trichotomy e e' with h | rfl | h
  · simp [compare_lt_iff_lt.mpr h, h.not_gt, h.ne]
  · simp [compare_gt_iff_gt]
  · simp [compare_gt_iff_gt.mpr h, h]

/-- A comparison of unpacked numbers is one of their places. -/
theorem le_iff {v w : UnpackedFloat} :
    v.le w = true ↔ ∃ p q, place? v = some p ∧ place? w = some q ∧ p ≤ q := by
  have hsigns : (compare Sign.negative Sign.negative).isLE = true ∧
      (compare Sign.negative Sign.positive).isLE = true ∧
      compare Sign.positive Sign.negative = .gt ∧
      (compare Sign.positive Sign.positive).isLE = true := by decide
  rcases v with s | _ | s | ⟨s, m, e, hm⟩ <;> rcases w with s' | _ | s' | ⟨s', m', e', hm'⟩ <;>
    (try cases s) <;> (try cases s') <;>
    dsimp only [UnpackedFloat.le, UnpackedFloat.compare, place?] <;>
    simp [Place.of_le_of_iff, hsigns, isLE_then_iff, isGE_then_iff]

/-- So is a strict comparison. -/
theorem lt_iff {v w : UnpackedFloat} :
    v.lt w = true ↔ ∃ p q, place? v = some p ∧ place? w = some q ∧ p < q := by
  have hsigns : compare Sign.negative Sign.negative = .eq ∧
      compare Sign.negative Sign.positive = .lt ∧
      compare Sign.positive Sign.negative = .gt ∧
      compare Sign.positive Sign.positive = .eq := by decide
  rcases v with s | _ | s | ⟨s, m, e, hm⟩ <;> rcases w with s' | _ | s' | ⟨s', m', e', hm'⟩ <;>
    (try cases s) <;> (try cases s') <;>
    dsimp only [UnpackedFloat.lt, UnpackedFloat.compare, place?] <;>
    simp [Place.of_lt_of_iff, hsigns, then_eq_lt_iff, then_eq_gt_iff]

/-- What equals itself has a place, and what is finite does. -/
theorem exists_place {v : UnpackedFloat} :
    (v.beq v = true → ∃ p, place? v = some p) ∧ (v.isFinite = true → v.beq v = true) := by
  have hsigns : compare Sign.negative Sign.negative = .eq ∧
      compare Sign.positive Sign.positive = .eq := by decide
  rcases v with s | _ | s | ⟨s, m, e, hm⟩ <;> (try cases s) <;>
    dsimp only [UnpackedFloat.beq, UnpackedFloat.compare, UnpackedFloat.isFinite, place?] <;>
    simp [hsigns]

/-- So is a comparison of numbers. -/
theorem le_iff_places {a b : Float} :
    a ≤ b ↔ ∃ p q, place? a.toModel.unpack = some p ∧ place? b.toModel.unpack = some q ∧ p ≤ q := by
  have hle : a ≤ b ↔ a.toModel.unpack.le b.toModel.unpack = true := decide_eq_true_iff
  exact hle.trans le_iff

end Binary64

/-! ### Double precision -/

/-- **The order of double-precision numbers is transitive**, also where a value is not a number. -/
instance isTrans_le : IsTrans Float (· ≤ ·) where
  trans a b c hab hbc := by
    obtain ⟨p, q, hp, hq, hpq⟩ := Binary64.le_iff_places.mp hab
    obtain ⟨q', r, hq', hr, hqr⟩ := Binary64.le_iff_places.mp hbc
    obtain rfl := Option.some.inj (hq.symm.trans hq')
    exact Binary64.le_iff_places.mpr ⟨p, r, hp, hr, hpq.trans hqr⟩

/-- **Double-precision numbers are totally ordered**, as far as they are numbers. -/
instance : OrdersNumbers Float where
  total {a b} ha hb := by
    obtain ⟨p, hp⟩ := Binary64.exists_place.1 ha
    obtain ⟨q, hq⟩ := Binary64.exists_place.1 hb
    rcases le_total p q with h | h
    · exact Or.inl (Binary64.le_iff_places.mpr ⟨p, q, hp, hq, h⟩)
    · exact Or.inr (Binary64.le_iff_places.mpr ⟨q, p, hq, hp, h⟩)
  lt_iff {a b} := by
    have hlt : a < b ↔ a.toModel.unpack.lt b.toModel.unpack = true := decide_eq_true_iff
    rw [hlt, Binary64.lt_iff]
    constructor
    · rintro ⟨p, q, hp, hq, hpq⟩
      refine ⟨Binary64.le_iff_places.mpr ⟨p, q, hp, hq, hpq.le⟩, fun hba => ?_⟩
      obtain ⟨q', p', hq', hp', hqp⟩ := Binary64.le_iff_places.mp hba
      obtain rfl := Option.some.inj (hq.symm.trans hq')
      obtain rfl := Option.some.inj (hp.symm.trans hp')
      exact hqp.not_gt hpq
    · rintro ⟨hab, hba⟩
      obtain ⟨p, q, hp, hq, hpq⟩ := Binary64.le_iff_places.mp hab
      refine ⟨p, q, hp, hq, lt_of_not_ge fun hqp => hba ?_⟩
      exact Binary64.le_iff_places.mpr ⟨q, p, hq, hp, hqp⟩
  isNumber_of_isFinite h := Binary64.exists_place.2 h

end Optimum

import Mathlib.Tactic.Linarith
import Optimum.Proofs.Bracket.Passes
import Optimum.Proofs.Scalar.Exact

/-!
# The inside of a bracket

In exact arithmetic Brent's search never leaves its interval. As long as the bracket is not
resolved, the larger part of it, on one side of the best point, is more than twice as long as the
resolution; so there is room for a golden section as well as for the least move. A move to the
vertex of a parabola is either at least twice the resolution away from both ends, or replaced by
the least move into the larger part.

## What is proved

* `Bracket.Proper.clear_proposal`: from a proper bracket, a new point lies inside, at least the
  resolution away from both ends and from the best point; `Bracket.Proper.advance`: the bracket stays
  proper.
* `Search.mem_Ioo_of_asks_boundedBrent`: all points evaluated lie inside the interval.
-/

namespace Optimum

open Scalar

namespace Bracket

variable {b : Bracket ℝ} {tol : ℝ}

/-! ### The larger part -/

theorem resolution_real (b : Bracket ℝ) (tol : ℝ) :
    b.resolution tol = sqrt epsilon * |b.best.x| + tol / 3 := by
  unfold resolution
  norm_num

theorem middle_real (b : Bracket ℝ) : b.middle = (b.lo + b.hi) / 2 := by
  unfold middle
  norm_num
  ring

theorem third_le_resolution (b : Bracket ℝ) (tol : ℝ) : tol / 3 ≤ b.resolution tol := by
  rw [resolution_real]
  have : 0 ≤ sqrt epsilon * |b.best.x| := mul_nonneg (Real.sqrt_nonneg _) (abs_nonneg _)
  linarith

theorem resolution_pos (b : Bracket ℝ) (htol : 0 < tol) : 0 < b.resolution tol := by
  linarith [b.third_le_resolution tol]

/-- An unresolved bracket has room beyond twice the resolution on its larger side. -/
theorem room_of_not_isResolved (h : ¬ b.IsResolved tol) :
    (b.middle ≤ b.best.x → 2 * b.resolution tol < b.best.x - b.lo) ∧
      (b.best.x ≤ b.middle → 2 * b.resolution tol < b.hi - b.best.x) := by
  have hgap : 2 * b.resolution tol - (b.hi - b.lo) / 2 < |b.best.x - b.middle| := by
    have := not_not.mp h
    norm_num at this
    linarith
  rw [middle_real] at *
  constructor
  · intro hle
    rw [abs_of_nonneg (by linarith)] at hgap
    linarith
  · intro hle
    rw [abs_of_nonpos (by linarith)] at hgap
    linarith

/-! ### Moves -/

/-- A move that keeps clear of the ends by the resolution, also where the least move replaces it. -/
structure Clears (b : Bracket ℝ) (tol : ℝ) (m : Move ℝ) : Prop where
  /-- A move to the right keeps clear of the upper end. -/
  right : 0 ≤ m.step → max m.step (b.resolution tol) + b.resolution tol ≤ b.hi - b.best.x
  /-- A move to the left keeps clear of the lower end. -/
  left : m.step < 0 → max (-m.step) (b.resolution tol) + b.resolution tol ≤ b.best.x - b.lo

theorem goldenMean_real_mem : 1 / 3 < (goldenMean : ℝ) ∧ (goldenMean : ℝ) < 1 / 2 := by
  have h₁ : Real.sqrt 5 < 7 / 3 := by
    rw [Real.sqrt_lt' (by norm_num)]
    norm_num
  have h₂ : 2 < Real.sqrt 5 := by
    rw [Real.lt_sqrt (by norm_num)]
    norm_num
  unfold goldenMean
  norm_num
  constructor <;> linarith

/-- A part of length `l`, of which more than the resolution fits twice, has room for its golden
section and the resolution beyond it. -/
private theorem golden_room {l ρ : ℝ} (hρ : 0 < ρ) (h : 2 * ρ < l) :
    max (goldenMean * l) ρ + ρ ≤ l := by
  obtain ⟨-, hg⟩ := goldenMean_real_mem
  have hhalf : goldenMean * l < 1 / 2 * l := mul_lt_mul_of_pos_right hg (by linarith)
  rcases max_cases (goldenMean * l) ρ with ⟨heq, -⟩ | ⟨heq, -⟩ <;> rw [heq] <;> linarith

theorem clears_goldenMove (htol : 0 < tol) (h : ¬ b.IsResolved tol) :
    b.Clears tol b.goldenMove := by
  obtain ⟨hlo, hhi⟩ := room_of_not_isResolved h
  have hρ := b.resolution_pos htol
  obtain ⟨hg, -⟩ := goldenMean_real_mem
  have hg : 0 < (goldenMean : ℝ) := by linarith
  unfold goldenMove
  split
  next hle =>
    have hroom := golden_room hρ (hlo hle)
    constructor
    · intro hstep
      have : goldenMean * (b.lo - b.best.x) < 0 :=
        mul_neg_of_pos_of_neg hg (by linarith [hlo hle])
      exact absurd hstep (not_le.mpr this)
    · intro _
      rwa [← mul_neg, neg_sub]
  next hlt =>
    have hroom := golden_room hρ (hhi (le_of_not_ge hlt))
    constructor
    · exact fun _ => hroom
    · intro hstep
      have : 0 < goldenMean * (b.hi - b.best.x) :=
        mul_pos hg (by linarith [hhi (le_of_not_ge hlt)])
      exact absurd hstep (not_lt.mpr this.le)

theorem clears_vertexMove (htol : 0 < tol) (h : ¬ b.IsResolved tol) {m : Move ℝ}
    (hm : b.vertexMove tol = some m) : b.Clears tol m := by
  obtain ⟨hlo, hhi⟩ := room_of_not_isResolved h
  have hρ := b.resolution_pos htol
  unfold vertexMove at hm
  generalize b.vertex = v at hm
  obtain ⟨p, q⟩ := v
  simp only at hm
  split_ifs at hm with hreach hsafe hclose hside
  -- the vertex is too close to an end, and the least move toward the middle replaces it
  · cases hm
    exact ⟨fun _ => by rw [max_self]; linarith [hhi hside], fun hneg => by linarith⟩
  · cases hm
    refine ⟨fun hpos => by linarith, fun _ => ?_⟩
    rw [neg_neg, max_self]
    linarith [hlo (le_of_not_ge hside)]
  -- the vertex is twice the resolution away from both ends, so that the least move may exceed it
  · cases hm
    obtain ⟨hfar, hfar'⟩ := not_or.mp hclose
    norm_num at hfar hfar'
    constructor
    · intro hpos
      exact le_sub_iff_add_le.mp (max_le (by linarith) (by linarith))
    · intro hneg
      exact le_sub_iff_add_le.mp (max_le (by linarith) (by linarith))

theorem clears_move (htol : 0 < tol) (h : ¬ b.IsResolved tol) : b.Clears tol (b.move tol) := by
  unfold move
  cases hm : b.vertexMove tol with
  | none => exact clears_goldenMove htol h
  | some m => exact clears_vertexMove htol h hm

/-! ### New points -/

/-- A new point is as far from the best point as the move is long, or the resolution where that
is longer. -/
theorem abs_target_sub (b : Bracket ℝ) (tol : ℝ) (m : Move ℝ) :
    |b.target tol m - b.best.x| = max |m.step| (b.resolution tol) := by
  have hmax : 0 ≤ max |m.step| (b.resolution tol) := le_max_of_le_left (abs_nonneg _)
  unfold target
  split <;> simp [abs_of_nonneg hmax]

/-- The best point is inside the interval. -/
structure Proper (b : Bracket ℝ) : Prop where
  /-- It is above the lower end. -/
  lo_lt : b.lo < b.best.x
  /-- It is below the upper end. -/
  lt_hi : b.best.x < b.hi

theorem Clears.target {m : Move ℝ} (hb : b.Proper) (hm : b.Clears tol m) :
    b.lo + b.resolution tol ≤ b.target tol m ∧ b.target tol m + b.resolution tol ≤ b.hi := by
  obtain ⟨hlo, hhi⟩ := hb
  unfold Bracket.target
  split
  next hpos =>
    have hright := hm.right hpos
    have hmax := le_max_right m.step (b.resolution tol)
    simp only [magnitude_real, larger_real, abs_of_nonneg hpos, one_mul]
    constructor <;> linarith
  next hneg =>
    have hleft := hm.left (not_le.mp hneg)
    have hmax := le_max_right (-m.step) (b.resolution tol)
    simp only [magnitude_real, larger_real, abs_of_neg (not_le.mp hneg), neg_one_mul]
    constructor <;> linarith

/-- **A new point keeps clear of the ends and of the best point by the resolution.** -/
theorem Proper.clear_proposal (hb : b.Proper) (htol : 0 < tol) (h : ¬ b.IsResolved tol) :
    b.lo + b.resolution tol ≤ b.proposal tol ∧ b.proposal tol + b.resolution tol ≤ b.hi ∧
      b.resolution tol ≤ |b.proposal tol - b.best.x| := by
  obtain ⟨hlo, hhi⟩ := (clears_move htol h).target hb
  refine ⟨hlo, hhi, ?_⟩
  rw [Bracket.proposal, abs_target_sub b tol]
  exact le_max_right _ _

/-- **A new point lies inside the interval, away from the best point.** -/
theorem Proper.proposal (hb : b.Proper) (htol : 0 < tol) (h : ¬ b.IsResolved tol) :
    b.lo < b.proposal tol ∧ b.proposal tol < b.hi ∧ b.proposal tol ≠ b.best.x := by
  obtain ⟨hlo, hhi, hfar⟩ := hb.clear_proposal htol h
  have hρ := b.resolution_pos htol
  refine ⟨by linarith, by linarith, fun heq => ?_⟩
  rw [heq, sub_self, abs_zero] at hfar
  linarith

/-- Taking in a point of the inside, apart from the best point, leaves the bracket proper and its
interval inside the old one. -/
theorem Proper.cut {new best : Sample ℝ} {lo hi : ℝ} (hb : b.Proper) (hlo : b.lo < new.x)
    (hhi : new.x < b.hi) (hne : new.x ≠ b.best.x) (h : b.Cut new lo hi best) :
    (lo < best.x ∧ best.x < hi) ∧ b.lo ≤ lo ∧ hi ≤ b.hi := by
  obtain ⟨hlo', hhi'⟩ := hb
  cases h with
  | betterAbove _ hx => exact ⟨⟨lt_of_le_of_ne hx hne.symm, hhi⟩, hlo'.le, le_rfl⟩
  | betterBelow _ hx => exact ⟨⟨hlo, not_le.mp hx⟩, le_rfl, hhi'.le⟩
  | worseBelow _ hx => exact ⟨⟨hx, hhi'⟩, hlo.le, le_rfl⟩
  | worseAbove _ hx => exact ⟨⟨hlo', lt_of_le_of_ne (not_lt.mp hx) hne.symm⟩, le_rfl, hhi.le⟩

/-- **A pass of the search leaves the bracket proper and its interval inside the old one.** -/
theorem Proper.advance (hb : b.Proper) (htol : 0 < tol) (h : ¬ b.IsResolved tol) (f : ℝ) :
    (b.advance tol f).Proper ∧ b.lo ≤ (b.advance tol f).lo ∧ (b.advance tol f).hi ≤ b.hi := by
  obtain ⟨hlo, hhi, hne⟩ := hb.proposal htol h
  obtain ⟨⟨hlo', hhi'⟩, hle, hge⟩ := hb.cut hlo hhi hne (b.cut_advance tol f)
  exact ⟨⟨hlo', hhi'⟩, hle, hge⟩

end Bracket

/-! ### Whole searches -/

namespace Search

variable {tol : ℝ}

theorem mem_Ioo_of_asks_refine (htol : 0 < tol) {left spent : Nat} {b : Bracket ℝ} (hb : b.Proper)
    {x : ℝ} (h : (refine tol left spent b).Asks x) : b.lo < x ∧ x < b.hi := by
  induction left generalizing spent b with
  | zero => exact h.elim
  | succ left ih =>
    rw [refine] at h
    split at h
    next => exact h.elim
    next hres =>
      rcases h with rfl | ⟨f, h⟩
      · obtain ⟨hlo, hhi, -⟩ := hb.proposal htol hres
        exact ⟨hlo, hhi⟩
      · obtain ⟨hb', hle, hge⟩ := hb.advance htol hres f
        obtain ⟨hlo, hhi⟩ := ih hb' h
        exact ⟨lt_of_le_of_lt hle hlo, lt_of_lt_of_le hhi hge⟩

/-- The first point of a search is inside its interval. -/
theorem proper_init {lo hi : ℝ} (h : lo < hi) (f : ℝ) :
    (Bracket.init lo hi ⟨Bracket.start lo hi, f⟩).Proper := by
  obtain ⟨hg, hg'⟩ := Bracket.goldenMean_real_mem
  have hpos : 0 < hi - lo := by linarith
  have h₁ : 0 < Bracket.goldenMean * (hi - lo) := mul_pos (by linarith) hpos
  have h₂ : Bracket.goldenMean * (hi - lo) < 1 / 2 * (hi - lo) := mul_lt_mul_of_pos_right hg' hpos
  constructor <;> simp only [Bracket.init, Bracket.start] <;> linarith

/-- **A search evaluates only points inside its interval.** -/
theorem mem_Ioo_of_asks_boundedBrent {lo hi : ℝ} (hlt : lo < hi) (htol : 0 < tol) {maxFev : Nat}
    {x : ℝ} (h : (boundedBrent lo hi tol maxFev).Asks x) : lo < x ∧ x < hi := by
  rcases h with rfl | ⟨f, h⟩
  · exact ⟨(proper_init hlt 0).lo_lt, (proper_init hlt 0).lt_hi⟩
  · exact mem_Ioo_of_asks_refine htol (proper_init hlt f) h

end Search

end Optimum

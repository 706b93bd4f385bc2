import Mathlib.Order.Interval.Set.Basic
import Optimum.Proofs.Bracket.Separation

/-!
# Functions with one valley

On a function that falls strictly to a point and rises strictly from there, two values tell on which
side of one of their points the bottom lies. A pass of Brent's search cuts off what the two values
rule out: so the interval never loses the bottom, also where that is one of its ends. Once the bracket
is resolved, the best point is as close to every point of the interval as the tolerance asks, and hence
to the bottom.

## What is proved

* `Unimodal.cut`: after a cut the function still has its one valley on the interval.
* `Bracket.IsResolved.abs_best_sub_le`: a resolved bracket has no point far from the best one.
* `Search.best_near_of_unimodal`: with evaluations enough for the length of the interval, the search
  returns a point near the bottom, with its value.
-/

namespace Optimum

open Scalar

/-- A function with one valley on an interval: it falls strictly to `bottom`, which may be an end, and
rises strictly from there. -/
structure Unimodal (φ : ℝ → ℝ) (lo bottom hi : ℝ) : Prop where
  /-- The bottom belongs to the interval. -/
  mem : bottom ∈ Set.Icc lo hi
  /-- Up to there the function falls. -/
  falls : StrictAntiOn φ (Set.Icc lo bottom)
  /-- From there on it rises. -/
  rises : StrictMonoOn φ (Set.Icc bottom hi)

namespace Unimodal

variable {φ : ℝ → ℝ} {lo bottom hi x y : ℝ}

/-- If the upper one of two points has no greater value, the bottom is not below the lower one. -/
theorem le_bottom (h : Unimodal φ lo bottom hi) (hy : y ≤ hi) (hxy : x < y) (hle : φ y ≤ φ x) :
    x ≤ bottom := by
  by_contra hlt
  have hlt : bottom < x := not_le.mp hlt
  have hrise : φ x < φ y := h.rises ⟨hlt.le, hxy.le.trans hy⟩ ⟨(hlt.trans hxy).le, hy⟩ hxy
  exact hrise.not_ge hle

/-- If the lower one has no greater value, the bottom is not above the upper one. -/
theorem bottom_le (h : Unimodal φ lo bottom hi) (hx : lo ≤ x) (hxy : x < y) (hle : φ x ≤ φ y) :
    bottom ≤ y := by
  by_contra hlt
  have hlt : y < bottom := not_le.mp hlt
  have hfall : φ y < φ x := h.falls ⟨hx, (hxy.trans hlt).le⟩ ⟨hx.trans hxy.le, hlt.le⟩ hxy
  exact hfall.not_ge hle

/-- The lower end may be moved up to any point that the bottom is not below. -/
theorem raise (h : Unimodal φ lo bottom hi) (hlo : lo ≤ x) (hx : x ≤ bottom) :
    Unimodal φ x bottom hi :=
  ⟨⟨hx, h.mem.2⟩, h.falls.mono (Set.Icc_subset_Icc_left hlo), h.rises⟩

/-- The upper end may be moved down to any point that the bottom is not above. -/
theorem lower (h : Unimodal φ lo bottom hi) (hhi : x ≤ hi) (hx : bottom ≤ x) :
    Unimodal φ lo bottom x :=
  ⟨⟨h.mem.1, hx⟩, h.falls, h.rises.mono (Set.Icc_subset_Icc_right hhi)⟩

/-- **A cut does not lose the bottom**, if the two values compared are those of the function. -/
theorem cut {b : Bracket ℝ} {new best : Sample ℝ} (h : Unimodal φ b.lo bottom b.hi) (hb : b.Proper)
    (hbest : b.best.f = φ b.best.x) (hnew : new.f = φ new.x) (hlo : b.lo < new.x) (hhi : new.x < b.hi)
    (hne : new.x ≠ b.best.x) (hcut : b.Cut new lo hi best) : Unimodal φ lo bottom hi := by
  obtain ⟨hlo', hhi'⟩ := hb
  cases hcut with
  | betterAbove hle hx =>
    rw [hbest, hnew] at hle
    exact h.raise hlo'.le (h.le_bottom hhi.le (hx.lt_of_ne' hne) hle)
  | betterBelow hle hx =>
    rw [hbest, hnew] at hle
    exact h.lower hhi'.le (h.bottom_le hlo.le (not_le.mp hx) hle)
  | worseBelow hgt hx =>
    rw [hbest, hnew] at hgt
    exact h.raise hlo.le (h.le_bottom hhi'.le hx (not_le.mp hgt).le)
  | worseAbove hgt hx =>
    rw [hbest, hnew] at hgt
    exact h.lower hhi.le (h.bottom_le hlo'.le ((not_lt.mp hx).lt_of_ne' hne) (not_le.mp hgt).le)

end Unimodal

namespace Bracket

variable {b : Bracket ℝ} {tol bottom : ℝ} {φ : ℝ → ℝ}

/-- A bracket around the bottom of a function. -/
structure Traps (b : Bracket ℝ) (φ : ℝ → ℝ) (bottom : ℝ) : Prop where
  /-- The best point is inside. -/
  proper : b.Proper
  /-- Its value is that of the function. -/
  value : b.best.f = φ b.best.x
  /-- On the interval the function has one valley. -/
  valley : Unimodal φ b.lo bottom b.hi

/-- **A pass keeps the bottom in the bracket**, if the function gives the value. -/
theorem Traps.advance (hb : b.Traps φ bottom) (htol : 0 < tol) (h : ¬ b.IsResolved tol) {f : ℝ}
    (hf : f = φ (b.proposal tol)) : (b.advance tol f).Traps φ bottom := by
  obtain ⟨hproper, hvalue, hvalley⟩ := hb
  obtain ⟨hlo, hhi, hne⟩ := hproper.proposal htol h
  obtain ⟨hproper', -, -⟩ := hproper.advance htol h f
  have hcut := b.cut_advance tol f
  refine ⟨hproper', ?_, hvalley.cut hproper hvalue hf hlo hhi hne hcut⟩
  rcases hcut.best_eq with hbest | hbest
  · rw [hbest]
    exact hf
  · rwa [hbest]

/-- A resolved bracket has no point far from the best one. -/
theorem IsResolved.abs_best_sub_le (h : b.IsResolved tol) {x : ℝ} (hx : x ∈ Set.Icc b.lo b.hi) :
    |b.best.x - x| ≤ 2 * b.resolution tol := by
  obtain ⟨hlo, hhi⟩ := hx
  have hmiddle : |b.best.x - b.middle| ≤ 2 * b.resolution tol - (b.hi - b.lo) / 2 := by
    have := not_lt.mp h
    norm_num at this
    linarith
  have hhalf : |b.middle - x| ≤ (b.hi - b.lo) / 2 := by
    rw [middle_real, abs_le]
    constructor <;> linarith
  calc |b.best.x - x| ≤ |b.best.x - b.middle| + |b.middle - x| := abs_sub_le _ _ _
    _ ≤ 2 * b.resolution tol := by linarith

end Bracket

namespace Search

variable {lo hi tol bottom : ℝ} {φ : ℝ → ℝ} {left maxFev : ℕ} {b b' : Bracket ℝ}
  {u : Dialogue.Record (fun _ : ℝ => ℝ)}

/-- Passes on a function keep its bottom in the bracket. -/
theorem Refines.traps (h : Refines tol left b u b') (htol : 0 < tol)
    (hvalues : ∀ s ∈ samples u, s.f = φ s.x) (hb : b.Traps φ bottom) : b'.Traps φ bottom :=
  h.preserves (P := fun b => b.Traps φ bottom)
    (fun _ _ hmem hres hb => hb.advance htol hres (hvalues _ hmem)) hb

/-- **A search finds the bottom of a function with one valley.** With evaluations enough for the length
of the interval, the search returns a point at most twice the resolution away from the bottom, with the
value of the function there. -/
theorem best_near_of_unimodal (hlt : lo < hi) (htol : 0 < tol) (hφ : Unimodal φ lo bottom hi)
    (hmax : 1 + 3 * (hi - lo) / tol ≤ maxFev) :
    let best := ((boundedBrent lo hi tol maxFev).answered φ).best
    best.f = φ best.x ∧ |best.x - bottom| ≤ 2 * (sqrt epsilon * |best.x| + tol / 3) := by
  intro best
  obtain ⟨u, hends, hvalues⟩ := Dialogue.exists_ends_answered φ (boundedBrent lo hi tol maxFev)
  obtain ⟨f, v, b', rfl, hrefines, hfound⟩ := refines_of_ends_boundedBrent hends
  obtain ⟨hfirst, hvalues⟩ := List.forall_mem_cons.mp hvalues
  have hinit : (Bracket.init lo hi ⟨Bracket.start lo hi, f⟩).Traps φ bottom :=
    ⟨proper_init hlt f, hfirst, hφ⟩
  have htraps := hrefines.traps htol (List.forall_mem_map.mpr hvalues) hinit
  have hresolved := hrefines.isResolved hlt htol hmax
  have hbest : best = b'.best := congrArg Found.best hfound
  rw [hbest]
  refine ⟨htraps.value, ?_⟩
  have hnear := hresolved.abs_best_sub_le htraps.valley.mem
  rwa [Bracket.resolution_real] at hnear

/-- The bottom of a function that is not smooth there. -/
theorem best_near_of_unimodal_abs :
    let φ : ℝ → ℝ := fun x => |x - 1 / 3|
    let best := ((boundedBrent 0 1 (1 / 10) 31).answered φ).best
    (0 : ℝ) < 1 ∧ (0 : ℝ) < 1 / 10 ∧ Unimodal φ 0 (1 / 3) 1 ∧
      1 + 3 * (1 - 0) / (1 / 10) ≤ ((31 : ℕ) : ℝ) ∧ best.f = |best.x - 1 / 3| ∧
      |best.x - 1 / 3| ≤ 2 * (sqrt epsilon * |best.x| + 1 / 10 / 3) := by
  intro φ best
  have hlt : (0 : ℝ) < 1 := one_pos
  have htol : (0 : ℝ) < 1 / 10 := by norm_num
  have hφ : Unimodal φ 0 (1 / 3) 1 := by
    refine ⟨⟨by norm_num, by norm_num⟩, fun x hx y hy hxy => ?_, fun x hx y hy hxy => ?_⟩
    · simp only [φ, abs_of_nonpos (sub_nonpos.mpr hx.2), abs_of_nonpos (sub_nonpos.mpr hy.2)]
      linarith
    · simp only [φ, abs_of_nonneg (sub_nonneg.mpr hx.1), abs_of_nonneg (sub_nonneg.mpr hy.1)]
      linarith
  have hmax : 1 + 3 * (1 - 0) / (1 / 10) ≤ ((31 : ℕ) : ℝ) := by norm_num
  obtain ⟨hvalue, hnear⟩ := best_near_of_unimodal hlt htol hφ hmax
  exact ⟨hlt, htol, hφ, hmax, hvalue, hnear⟩

end Search

end Optimum

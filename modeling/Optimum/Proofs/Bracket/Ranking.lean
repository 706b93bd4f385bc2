import Mathlib.Tactic.NormNum
import Optimum.Proofs.Bracket.Separation

/-!
# The three best points of a search

Besides the best point a bracket keeps a second and a third one, and a parabola through the three
tells where to look next. At the start all three are one point, and after the first pass the third is
still one of the other two; then it may even be the best one, and out of order. The tests for equal
abscissas let the next point take such a place, whatever its value. From there on the three are
different, and the best of all points that the search has looked at. As long as the third point is
the best one there is no parabola, and the search divides its interval in the golden section.

No point is looked at twice, so that "different" and "of all points" can be said of the list of points
visited: it is a rearrangement of the three and the rest.

## What is proved

* `Bracket.ranking_absorb`: the four ways in which a new point may rank.
* `Bracket.Ranking.ranked`: a pass keeps the points in their order; by induction on the passes,
  `Search.Refines.ranked`.
* `Search.keepsBest_of_record`: what a bracket keeps at the end of each pass, on any function that may
  keep a state and may fail.
-/

namespace Optimum

open Scalar

/-! ### How a new point ranks -/

namespace Bracket

/-- How a new point ranks: the best point, the second and the third after it is taken in. -/
inductive Ranking {α : Type} [Scalar α] (b : Bracket α) (new : Sample α) :
    (best second third : Sample α) → Prop where
  /-- A point no worse than the best. -/
  | first : new.f ≤ b.best.f → Ranking b new new b.best b.second
  /-- A point no worse than the second, or any where the second is the best one again. -/
  | second : ¬ new.f ≤ b.best.f → new.f ≤ b.second.f ∨ b.second.x == b.best.x →
      Ranking b new b.best new b.second
  /-- A point no worse than the third, or any where the third is one of the others. -/
  | third : ¬ new.f ≤ b.best.f → ¬ (new.f ≤ b.second.f ∨ b.second.x == b.best.x) →
      new.f ≤ b.third.f ∨ b.third.x == b.best.x ∨ b.third.x == b.second.x →
      Ranking b new b.best b.second new
  /-- A point worse than all three. -/
  | last : ¬ new.f ≤ b.best.f → ¬ (new.f ≤ b.second.f ∨ b.second.x == b.best.x) →
      ¬ (new.f ≤ b.third.f ∨ b.third.x == b.best.x ∨ b.third.x == b.second.x) →
      Ranking b new b.best b.second b.third

/-- **A point that is taken in ranks in one of the four ways.** -/
theorem ranking_absorb {α : Type} [Scalar α] (b : Bracket α) (new : Sample α) :
    b.Ranking new (b.absorb new).best (b.absorb new).second (b.absorb new).third := by
  unfold absorb
  split
  next hbest => exact .first hbest
  next hbest =>
    unfold retain
    -- where the point cuts the interval makes no difference to the ranks
    by_cases hx : new.x < b.best.x
    · simp only [hx, if_true]
      split_ifs with hsecond hthird
      · exact .second hbest hsecond
      · exact .third hbest hsecond hthird
      · exact .last hbest hsecond hthird
    · simp only [hx, if_false]
      split_ifs with hsecond hthird
      · exact .second hbest hsecond
      · exact .third hbest hsecond hthird
      · exact .last hbest hsecond hthird

end Bracket

/-! ### Points in order -/

/-- The points visited in order: the best, the second and the third, and others that are no better. As
long as there are fewer than three, some of these are the same point. -/
inductive Sample.Ranked (visited : List (Sample ℝ)) (best second third : Sample ℝ) : Prop where
  /-- A single point. -/
  | one : visited = [best] → second = best → third = best → Ranked visited best second third
  /-- Two points, of which either may stand in the third place. -/
  | two : visited.Perm [best, second] → best.f ≤ second.f → third = best ∨ third = second →
      Ranked visited best second third
  /-- Three points, and others. -/
  | more {rest : List (Sample ℝ)} : visited.Perm (best :: second :: third :: rest) →
      best.f ≤ second.f → second.f ≤ third.f → (∀ s ∈ rest, third.f ≤ s.f) →
      Ranked visited best second third

namespace Bracket

variable {b : Bracket ℝ} {visited : List (Sample ℝ)} {new best second third : Sample ℝ} {tol : ℝ}

/-- **A point that has not been visited leaves the points in order.** -/
theorem Ranking.ranked (h : b.Ranking new best second third)
    (hb : Sample.Ranked visited b.best b.second b.third)
    (hvisited : ((visited ++ [new]).map Sample.x).Nodup) :
    Sample.Ranked (visited ++ [new]) best second third := by
  have hnew : (visited ++ [new]).Perm (new :: visited) := List.perm_append_singleton new visited
  have hlt : ∀ {v : ℝ}, ¬ new.f ≤ v → v ≤ new.f := fun h => (not_le.mp h).le
  cases hb with
  | one hv hsecond hthird =>
    -- the second point is the best one again, so the new point takes its place
    have hequal : b.second.x == b.best.x := by simp [hsecond]
    rw [hv] at hnew ⊢
    cases h with
    | first hbest => exact .two hnew hbest (.inr hsecond)
    | second hbest _ => exact .two (.refl _) (hlt hbest) (.inl hsecond)
    | third _ hsecond _ => exact absurd (.inr hequal) hsecond
    | last _ hsecond _ => exact absurd (.inr hequal) hsecond
  | two hv hle hthird =>
    have hall := hnew.trans (hv.cons new)
    have hdistinct := (hall.map Sample.x).nodup_iff.mp hvisited
    simp only [List.map_cons, List.nodup_cons, List.mem_cons, not_or] at hdistinct
    obtain ⟨-, ⟨hne, -⟩, -⟩ := hdistinct
    have hapart : ¬ (b.second.x == b.best.x) := by simpa using Ne.symm hne
    have hequal : b.third.x == b.best.x ∨ b.third.x == b.second.x :=
      hthird.imp (fun h => by simp [h]) fun h => by simp [h]
    cases h with
    | first hbest => exact .more hall hbest hle nofun
    | second hbest hsecond =>
      exact .more (hall.trans (.swap _ _ _)) (hlt hbest) (hsecond.resolve_right hapart) nofun
    | third _ hsecond _ =>
      exact .more (hall.trans (@List.perm_middle _ new [b.best, b.second] []).symm) hle
        (hlt (not_or.mp hsecond).1) nofun
    | last _ _ hthird => exact absurd (.inr hequal) hthird
  | @more rest hv hle hle' hrest =>
    have hall := hnew.trans (hv.cons new)
    have hdistinct := (hall.map Sample.x).nodup_iff.mp hvisited
    simp only [List.map_cons, List.nodup_cons, List.mem_cons, not_or] at hdistinct
    obtain ⟨-, ⟨hne, hne', -⟩, ⟨hne'', -⟩, -⟩ := hdistinct
    have hapart : ¬ (b.second.x == b.best.x) := by simpa using Ne.symm hne
    have hapart' : ¬ (b.third.x == b.best.x ∨ b.third.x == b.second.x) := by
      simpa using ⟨Ne.symm hne', Ne.symm hne''⟩
    have hrest' : ∀ {v : ℝ}, v ≤ b.third.f → ∀ s ∈ b.third :: rest, v ≤ s.f := fun h =>
      List.forall_mem_cons.mpr ⟨h, fun s hs => h.trans (hrest s hs)⟩
    cases h with
    | first hbest => exact .more hall hbest hle (hrest' hle')
    | second hbest hsecond =>
      exact .more (hall.trans (.swap _ _ _)) (hlt hbest) (hsecond.resolve_right hapart) (hrest' hle')
    | third _ hsecond hthird =>
      exact .more (hall.trans (@List.perm_middle _ new [b.best, b.second] _).symm) hle
        (hlt (not_or.mp hsecond).1) (hrest' (hthird.resolve_right hapart'))
    | last _ _ hthird =>
      exact .more (hall.trans (@List.perm_middle _ new [b.best, b.second, b.third] _).symm) hle hle'
        (List.forall_mem_cons.mpr ⟨hlt (not_or.mp hthird).1, hrest⟩)

/-- What a bracket keeps of the points visited. -/
structure KeepsBest (b : Bracket ℝ) (visited : List (Sample ℝ)) : Prop where
  /-- Its three points have been visited, and have the values found there. -/
  known : b.best ∈ visited ∧ b.second ∈ visited ∧ b.third ∈ visited
  /-- Once there are three, they are three different ones. -/
  distinct : 3 ≤ visited.length →
    b.best.x ≠ b.second.x ∧ b.best.x ≠ b.third.x ∧ b.second.x ≠ b.third.x
  /-- Their values are in order. -/
  ordered : 3 ≤ visited.length → b.best.f ≤ b.second.f ∧ b.second.f ≤ b.third.f
  /-- No other point is better than the third. -/
  others : 3 ≤ visited.length → ∀ s ∈ visited, s.x ≠ b.best.x → s.x ≠ b.second.x →
    s.x ≠ b.third.x → b.third.f ≤ s.f

/-- Points in order are what a bracket keeps. -/
theorem keepsBest_of_ranked (h : Sample.Ranked visited b.best b.second b.third)
    (hvisited : (visited.map Sample.x).Nodup) : b.KeepsBest visited := by
  cases h with
  | one hv hsecond hthird =>
    have hfew : ¬ 3 ≤ visited.length := by simp [hv]
    refine ⟨?_, fun hmany => absurd hmany hfew, fun hmany => absurd hmany hfew,
      fun hmany => absurd hmany hfew⟩
    simp [hsecond, hthird, hv]
  | two hv _ hthird =>
    have hfew : ¬ 3 ≤ visited.length := by simp [hv.length_eq]
    refine ⟨?_, fun hmany => absurd hmany hfew, fun hmany => absurd hmany hfew,
      fun hmany => absurd hmany hfew⟩
    simpa [hv.mem_iff] using hthird
  | more hv hle hle' hrest =>
    have hdistinct := (hv.map Sample.x).nodup_iff.mp hvisited
    simp only [List.map_cons, List.nodup_cons, List.mem_cons, not_or] at hdistinct
    obtain ⟨⟨hne, hne', -⟩, ⟨hne'', -⟩, -⟩ := hdistinct
    refine ⟨by simp [hv.mem_iff], fun _ => ⟨hne, hne', hne''⟩, fun _ => ⟨hle, hle'⟩,
      fun _ s hs hbest hsecond hthird => hrest s ?_⟩
    simp only [hv.mem_iff, List.mem_cons] at hs
    rcases hs with rfl | rfl | rfl | hs
    · exact absurd rfl hbest
    · exact absurd rfl hsecond
    · exact absurd rfl hthird
    · exact hs

end Bracket

namespace Search

variable {b b' : Bracket ℝ} {tol lo hi : ℝ} {left : ℕ} {u done : Dialogue.Record (fun _ : ℝ => ℝ)}
  {visited : List (Sample ℝ)}

/-- **Passes keep the points in order**, by induction, if no point is looked at twice. -/
theorem Refines.ranked (h : Refines tol left b u b')
    (hb : Sample.Ranked visited b.best b.second b.third)
    (hvisited : ((visited ++ samples u).map Sample.x).Nodup) :
    Sample.Ranked (visited ++ samples u) b'.best b'.second b'.third := by
  induction h generalizing visited with
  | halts _ => simpa [samples] using hb
  | @pass _ b _ f u _ _ ih =>
    have hsplit : visited ++ samples (⟨b.proposal tol, f⟩ :: u) =
        (visited ++ [⟨b.proposal tol, f⟩]) ++ samples u := by simp [samples]
    rw [hsplit] at hvisited ⊢
    refine ih ?_ hvisited
    rw [List.map_append] at hvisited
    exact (b.ranking_absorb ⟨b.proposal tol, f⟩).ranked hb hvisited.of_append_left

/-- No point is looked at twice on the way to a bracket. -/
theorem StandsAt.nodup (h : StandsAt lo hi tol done b) (hlt : lo < hi) (htol : 0 < tol) :
    ((samples done).map Sample.x).Nodup := by
  obtain ⟨f, u, rfl, hrefines⟩ := h
  let first : Sample ℝ := ⟨Bracket.start lo hi, f⟩
  have hv : (Bracket.init lo hi first).Surveys [first] :=
    ⟨Sample.isLatestMin_singleton (isNumber_real _), List.forall_mem_singleton.mpr fun _ _ => rfl⟩
  exact (hrefines.separates htol (proper_init hlt f) hv (List.nodup_singleton _)).1

/-- **Wherever a search stands, the bracket keeps the best points.** -/
theorem StandsAt.keepsBest (h : StandsAt lo hi tol done b) (hlt : lo < hi) (htol : 0 < tol) :
    b.KeepsBest (samples done) := by
  have hnodup := h.nodup hlt htol
  obtain ⟨f, u, rfl, hrefines⟩ := h
  have hfirst : Sample.Ranked [⟨Bracket.start lo hi, f⟩]
      (Bracket.init lo hi ⟨Bracket.start lo hi, f⟩).best ⟨Bracket.start lo hi, f⟩
      ⟨Bracket.start lo hi, f⟩ := .one rfl rfl rfl
  exact Bracket.keepsBest_of_ranked (hrefines.ranked hfirst hnodup) hnodup

end Search

/-! ### The first points of a search -/

namespace Bracket

variable {b : Bracket ℝ} {tol : ℝ}

/-- As long as the third point is the best one, there is no parabola. -/
theorem move_of_third_eq_best (h : b.third = b.best) : b.move tol = b.goldenMove := by
  have hvertex : b.vertex = (0, 0) := by simp [vertex, h]
  unfold move vertexMove
  rw [hvertex]
  simp

/-- Then the search goes up from a point below the middle, -/
theorem move_above (h : b.third = b.best) (hside : b.best.x < b.middle) :
    b.move tol = ⟨goldenMean * (b.hi - b.best.x), b.hi - b.best.x⟩ := by
  rw [move_of_third_eq_best h, goldenMove, if_neg (not_le.mpr hside)]

/-- and down from the others. -/
theorem move_below (h : b.third = b.best) (hside : b.middle ≤ b.best.x) :
    b.move tol = ⟨goldenMean * (b.lo - b.best.x), b.lo - b.best.x⟩ := by
  rw [move_of_third_eq_best h, goldenMove, if_pos hside]

/-- A move as long as the resolution is made as it is. -/
theorem target_of_resolution_le {m : Move ℝ} (h : b.resolution tol ≤ |m.step|) :
    b.target tol m = b.best.x + m.step := by
  unfold target
  rw [magnitude_real, larger_real, max_eq_left h]
  split
  next hpos => simp only [abs_of_nonneg hpos, one_mul]
  next hneg => simp only [abs_of_neg (not_le.mp hneg), neg_mul_neg, one_mul]

theorem proposal_of_move {m : Move ℝ} (h : b.move tol = m) (hm : b.resolution tol ≤ |m.step|) :
    b.proposal tol = b.best.x + m.step := by
  rw [proposal, h, target_of_resolution_le hm]

/-- A bracket longer than four times the resolution is not resolved. -/
theorem not_isResolved_of_lt_length (h : 4 * b.resolution tol < b.hi - b.lo) :
    ¬ b.IsResolved tol := by
  have hneg : 2.0 * b.resolution tol - 0.5 * (b.hi - b.lo) < 0 := by
    norm_num
    linarith
  exact not_not.mpr (hneg.trans_le (abs_nonneg _))

theorem resolution_le (h : |b.best.x| ≤ 1) (htol : tol ≤ 1 / 100) :
    b.resolution tol ≤ 1 / 250 := by
  have hsqrt : Real.sqrt epsilon ≤ 1 / 1500 := by
    rw [Real.sqrt_le_iff]
    constructor
    · norm_num
    · change (2 : ℝ)⁻¹ ^ 52 ≤ _
      norm_num
  have hrelative := mul_le_mul hsqrt h (abs_nonneg _) (by norm_num)
  rw [resolution_real, sqrt_real]
  linarith

/-! #### The golden section -/

theorem goldenMean_sq : (goldenMean : ℝ) * goldenMean = 3 * goldenMean - 1 := by
  have h : Real.sqrt 5 * Real.sqrt 5 = 5 := Real.mul_self_sqrt (by norm_num)
  unfold goldenMean
  norm_num
  linarith

theorem goldenMean_near : 19 / 50 < (goldenMean : ℝ) ∧ (goldenMean : ℝ) < 2 / 5 := by
  have habove : Real.sqrt 5 < 56 / 25 := by
    rw [Real.sqrt_lt' (by norm_num)]
    norm_num
  have hbelow : 11 / 5 < Real.sqrt 5 := by
    rw [Real.lt_sqrt (by norm_num)]
    norm_num
  unfold goldenMean
  norm_num
  constructor <;> linarith

end Bracket

namespace Search

variable {b b' : Bracket ℝ} {tol lo hi : ℝ} {left : ℕ} {u : Dialogue.Record (fun _ : ℝ => ℝ)}

/-- A pass whose move is made as it is, and passes after it. -/
theorem Refines.of_move {m : Move ℝ} {x f : ℝ} (hmove : b.move tol = m)
    (hstep : b.resolution tol ≤ |m.step|) (hx : b.best.x + m.step = x)
    (hlength : 4 * b.resolution tol < b.hi - b.lo)
    (h : Refines tol left { b.absorb ⟨x, f⟩ with last := m } u b') :
    Refines tol (left + 1) b (⟨x, f⟩ :: u) b' := by
  have hproposal : b.proposal tol = x := by rw [Bracket.proposal_of_move hmove hstep, hx]
  have hadvance : b.advance tol f = { b.absorb ⟨x, f⟩ with last := m } := by
    rw [Bracket.advance, hmove, hproposal]
  rw [← hadvance] at h
  have hpass := Refines.pass (Bracket.not_isResolved_of_lt_length hlength) h
  rwa [hproposal] at hpass

/-- A search on the unit interval that finds a worse value first and then a better one divides it
twice in the golden section, from both sides. -/
theorem standsAt_unit {φ : ℝ → ℝ} (htol : tol ≤ 1 / 100)
    (hrise : φ Bracket.goldenMean < φ (1 - Bracket.goldenMean))
    (hfall : φ (1 - 2 * Bracket.goldenMean) ≤ φ Bracket.goldenMean) :
    let point (x : ℝ) : Sample ℝ := ⟨x, φ x⟩
    let exchange (x : ℝ) : Dialogue.Exchange (fun _ : ℝ => ℝ) := ⟨x, φ x⟩
    let g : ℝ := Bracket.goldenMean
    StandsAt 0 1 tol [exchange g, exchange (1 - g), exchange (1 - 2 * g)]
      ⟨0, g, point (1 - 2 * g), point g, point (1 - g), ⟨1 - 3 * g, -g⟩⟩ := by
  intro point exchange g
  have hsq : g * g = 3 * g - 1 := Bracket.goldenMean_sq
  obtain ⟨hlo, hhi⟩ : 19 / 50 < g ∧ g < 2 / 5 := Bracket.goldenMean_near
  have habs : |g| ≤ 1 := abs_le.mpr ⟨by linarith, by linarith⟩
  -- the first pass goes up from a point below the middle, and finds a worse value
  let b₀ : Bracket ℝ := .init 0 1 (point g)
  let b₁ : Bracket ℝ := ⟨0, 1 - g, point g, point (1 - g), point g, ⟨1 - 2 * g, 1 - g⟩⟩
  have hres₀ : b₀.resolution tol ≤ 1 / 250 := Bracket.resolution_le habs htol
  have hmove₀ : b₀.move tol = ⟨1 - 2 * g, 1 - g⟩ := by
    have hside : b₀.best.x < b₀.middle := by
      rw [Bracket.middle_real]
      change g < (0 + 1) / 2
      linarith
    have hpart : g * (1 - g) = 1 - 2 * g := by linarith
    exact (Bracket.move_above rfl hside).trans (congrArg (Move.mk · (1 - g)) hpart)
  have habsorb₀ : { b₀.absorb (point (1 - g)) with last := ⟨1 - 2 * g, 1 - g⟩ } = b₁ := by
    have hworse : ¬ φ (1 - g) ≤ φ g := not_le.mpr hrise
    have habove : ¬ 1 - g < g := by linarith
    simp [Bracket.absorb, Bracket.retain, Bracket.init, point, hworse, habove, b₀, b₁]
  -- the second one goes down from a point above the middle, and finds a better value
  let b₂ : Bracket ℝ := ⟨0, g, point (1 - 2 * g), point g, point (1 - g), ⟨1 - 3 * g, -g⟩⟩
  have hres₁ : b₁.resolution tol ≤ 1 / 250 := Bracket.resolution_le habs htol
  have hmove₁ : b₁.move tol = ⟨1 - 3 * g, -g⟩ := by
    have hside : b₁.middle ≤ b₁.best.x := by
      rw [Bracket.middle_real]
      change (0 + (1 - g)) / 2 ≤ g
      linarith
    have hpart : g * (0 - g) = 1 - 3 * g := by linarith
    rw [Bracket.move_below rfl hside, ← hpart, ← zero_sub]
  have habsorb₁ : { b₁.absorb (point (1 - 2 * g)) with last := ⟨1 - 3 * g, -g⟩ } = b₂ := by
    have hbetter : φ (1 - 2 * g) ≤ φ g := hfall
    have hbelow : ¬ g ≤ 1 - 2 * g := by linarith
    simp [Bracket.absorb, Bracket.improve, point, hbetter, hbelow, b₁, b₂]
  have hsecond : Refines tol 1 b₁ [exchange (1 - 2 * g)] b₂ := by
    refine .of_move hmove₁ (hres₁.trans (le_abs.mpr (.inr ?_))) ?_ ?_ (habsorb₁ ▸ .halts (.inl rfl))
    · change 1 / 250 ≤ -(1 - 3 * g)
      linarith
    · change g + (1 - 3 * g) = 1 - 2 * g
      ring
    · change _ < 1 - g - 0
      linarith
  have hfirst : Refines tol 2 b₀ [exchange (1 - g), exchange (1 - 2 * g)] b₂ := by
    refine .of_move hmove₀ (hres₀.trans (le_abs.mpr (.inl ?_))) ?_ ?_ (habsorb₀ ▸ hsecond)
    · change 1 / 250 ≤ 1 - 2 * g
      linarith
    · change g + (1 - 2 * g) = 1 - g
      ring
    · change _ < 1 - 0
      linarith
  have hstart : Bracket.start (0 : ℝ) 1 = g := by simp [Bracket.start, g]
  exact ⟨φ g, _, by rw [hstart], by rw [hstart]; exact hfirst⟩

/-- **At the end of every pass a search keeps the best points**, whatever function is searched: it may
keep a state, and fail. Where a function has one value at each point, these are its values there. -/
theorem keepsBest_of_record {σ ε : Type} (φ : ℝ → StateM σ (Except ε ℝ)) (hlt : lo < hi)
    (htol : 0 < tol) (maxFev : ℕ) (s : σ) (done : Dialogue.Record (fun _ : ℝ => ℝ))
    (rest : Dialogue.Record (fun _ : ℝ => Except ε ℝ)) (hdone : done ≠ [])
    (hrecord : (boundedBrentOn φ lo hi tol maxFev s).2 = Dialogue.unfailing ε done ++ rest) :
    ∃ b, StandsAt lo hi tol done b ∧
      (boundedBrent lo hi tol maxFev).Reaches done
        (refine tol (maxFev - done.length) done.length b) ∧
      b.KeepsBest (samples done) ∧
      ∀ g : ℝ → ℝ, (∀ x s v, ((φ x).run s).1 = .ok v → v = g x) →
        b.best.f = g b.best.x ∧ b.second.f = g b.second.x ∧ b.third.f = g b.third.x := by
  have hends : ((boundedBrent lo hi tol maxFev).attempt ε).Ends
      (boundedBrentOn φ lo hi tol maxFev s).2 (boundedBrentOn φ lo hi tol maxFev s).1 :=
    Dialogue.ends_record _ s
  rw [hrecord] at hends
  obtain ⟨d, hreaches⟩ := hends.reaches_of_unfailing
  obtain ⟨b, hstands, rfl⟩ := standsAt_of_reaches hreaches hdone
  have hkeeps := hstands.keepsBest hlt htol
  refine ⟨b, hstands, hreaches, hkeeps, fun g hg => ?_⟩
  have hvalue : ∀ p ∈ samples done, p.f = g p.x := by
    intro p hp
    obtain ⟨e, he, rfl⟩ := List.mem_map.mp hp
    have hmem : (⟨e.question, .ok e.answer⟩ : Dialogue.Exchange fun _ : ℝ => Except ε ℝ) ∈
        (boundedBrentOn φ lo hi tol maxFev s).2 := by
      rw [hrecord]
      exact List.mem_append_left _ (List.mem_map_of_mem he)
    obtain ⟨s', hs'⟩ := Dialogue.answer_of_mem_record hmem
    exact hg _ s' _ hs'
  obtain ⟨hbest, hsecond, hthird⟩ := hkeeps.known
  exact ⟨hvalue _ hbest, hvalue _ hsecond, hvalue _ hthird⟩

/-- The search on a parabola that counts its calls, after three of them. -/
theorem keepsBest_of_record_countedParabola :
    let φ : ℝ → StateM ℕ (Except String ℝ) := fun x calls => (.ok ((x - 1 / 4) ^ 2), calls + 1)
    let out := boundedBrentOn φ 0 1 (1 / 100) 10 0
    let g : ℝ := Bracket.goldenMean
    (0 : ℝ) < 1 ∧ (0 : ℝ) < 1 / 100 ∧ ∃ done rest b, done ≠ [] ∧
      out.2 = Dialogue.unfailing String done ++ rest ∧
      done.map (·.question) = [g, 1 - g, 1 - 2 * g] ∧ StandsAt 0 1 (1 / 100) done b ∧
      b.KeepsBest (samples done) ∧ b.best.x ≠ b.third.x ∧ b.best.f ≤ b.second.f ∧
      b.third.f = (b.third.x - 1 / 4) ^ 2 := by
  intro φ out g
  obtain ⟨hlo, hhi⟩ : 19 / 50 < g ∧ g < 2 / 5 := Bracket.goldenMean_near
  let value (x : ℝ) : ℝ := (x - 1 / 4) ^ 2
  let exchange (x : ℝ) : Dialogue.Exchange (fun _ : ℝ => ℝ) := ⟨x, value x⟩
  let done := [exchange g, exchange (1 - g), exchange (1 - 2 * g)]
  have hrise : value g < value (1 - g) :=
    sq_lt_sq.mpr (by rw [abs_of_nonneg (by linarith), abs_of_nonneg (by linarith)]; linarith)
  have hfall : value (1 - 2 * g) ≤ value g :=
    sq_le_sq.mpr (by rw [abs_of_neg (by linarith), abs_of_nonneg (by linarith)]; linarith)
  have hstands : StandsAt 0 1 (1 / 100) done _ := standsAt_unit le_rfl hrise hfall
  have hreaches : (boundedBrent (0 : ℝ) 1 (1 / 100) 10).Reaches done _ :=
    hstands.reaches (show 3 ≤ 10 by decide)
  have hanswers : ∀ e ∈ done, ∀ s, ((φ e.question).run s).1 = .ok e.answer := by
    simp only [done, List.forall_mem_cons]
    exact ⟨fun _ => rfl, fun _ => rfl, fun _ => rfl, nofun⟩
  obtain ⟨rest, hrecord⟩ := hreaches.record_attempt hanswers 0
  have hlt : (0 : ℝ) < 1 := one_pos
  have htol : (0 : ℝ) < 1 / 100 := by norm_num
  have hdone : done ≠ [] := List.cons_ne_nil _ _
  obtain ⟨b, hb, -, hkeeps, hvalues⟩ := keepsBest_of_record φ hlt htol 10 0 done rest hdone hrecord
  obtain ⟨-, -, hthird⟩ := hvalues value fun x s v h => (Except.ok.inj h).symm
  obtain ⟨-, hne, -⟩ := hkeeps.distinct le_rfl
  exact ⟨hlt, htol, done, rest, b, hdone, hrecord, rfl, hb, hkeeps, hne,
    (hkeeps.ordered le_rfl).1, hthird⟩

end Search

end Optimum

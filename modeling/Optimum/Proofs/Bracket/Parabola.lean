import Mathlib.Tactic.Ring
import Optimum.Proofs.Bracket.Ranking

/-!
# Searches of a parabola

The move to the vertex is computed from the three points that a bracket keeps, with a numerator and a
denominator whose signs are changed on the way. If the points are three different ones of a parabola
that opens upward, the denominator is positive, and the quotient leads from the best point to the bottom
of the parabola. So the search of such a function looks at its bottom as soon as it makes such a move
and leaves it as it is; and what it has found there it returns, since no other point is as good.

## What is proved

* `Bracket.Interpolates.vertex`: the sign of the denominator, and the quotient.
* `Bracket.vertexMove_eq`: the tests that a move to a vertex undergoes, in terms of the vertex;
  `Bracket.Interpolates.findsVertex`: what becomes of them on a parabola.
* `Search.best_of_mem_exchanged`: a search that looks at the bottom returns it.
* `Search.findsVertex_of_exchanged`: all passes of a search of a parabola, from the fourth evaluation
  on.
-/

namespace Optimum

open Scalar

namespace Bracket

variable {b : Bracket ℝ} {tol A m C x s : ℝ}

/-! ### The vertex -/

/-- The three points are different points of a parabola with its bottom at `m`. -/
structure Interpolates (b : Bracket ℝ) (A m C : ℝ) : Prop where
  /-- The best point is one of them. -/
  best : b.best.f = A * (b.best.x - m) ^ 2 + C
  /-- So is the second. -/
  second : b.second.f = A * (b.second.x - m) ^ 2 + C
  /-- And the third. -/
  third : b.third.f = A * (b.third.x - m) ^ 2 + C
  /-- No two of them are the same. -/
  distinct : b.best.x ≠ b.second.x ∧ b.best.x ≠ b.third.x ∧ b.second.x ≠ b.third.x

/-- Half of the denominator, but for the sign: a product of the differences. -/
theorem Interpolates.denominator (h : b.Interpolates A m C) :
    (b.best.x - b.third.x) * (b.best.f - b.second.f) -
        (b.best.x - b.second.x) * (b.best.f - b.third.f) =
      A * (b.best.x - b.third.x) * (b.best.x - b.second.x) * (b.second.x - b.third.x) := by
  rw [h.best, h.second, h.third]
  ring

/-- The numerator, but for the sign, in terms of the denominator. -/
theorem Interpolates.numerator (h : b.Interpolates A m C) :
    (b.best.x - b.third.x) * ((b.best.x - b.third.x) * (b.best.f - b.second.f)) -
        (b.best.x - b.second.x) * ((b.best.x - b.second.x) * (b.best.f - b.third.f)) =
      2 * ((b.best.x - b.third.x) * (b.best.f - b.second.f) -
        (b.best.x - b.second.x) * (b.best.f - b.third.f)) * (b.best.x - m) := by
  rw [h.best, h.second, h.third]
  ring

/-- **The vertex of the parabola is its bottom.** -/
theorem Interpolates.vertex (h : b.Interpolates A m C) (hA : A ≠ 0) :
    0 < b.vertex.2 ∧ b.vertex.1 = b.vertex.2 * (m - b.best.x) := by
  obtain ⟨hne, hne', hne''⟩ := h.distinct
  have hnumerator := h.numerator
  have hdenominator : (b.best.x - b.third.x) * (b.best.f - b.second.f) -
      (b.best.x - b.second.x) * (b.best.f - b.third.f) ≠ 0 := by
    rw [h.denominator]
    exact mul_ne_zero (mul_ne_zero (mul_ne_zero hA (sub_ne_zero.mpr hne')) (sub_ne_zero.mpr hne))
      (sub_ne_zero.mpr hne'')
  unfold Bracket.vertex
  simp only [show (2.0 : ℝ) = 2 by norm_num, magnitude_real]
  rw [hnumerator]
  generalize (b.best.x - b.third.x) * (b.best.f - b.second.f) -
    (b.best.x - b.second.x) * (b.best.f - b.third.f) = d at hdenominator ⊢
  refine ⟨abs_pos.mpr (mul_ne_zero two_ne_zero hdenominator), ?_⟩
  split
  next hpos =>
    rw [abs_of_pos hpos]
    ring
  next hneg =>
    rw [abs_of_nonpos (not_lt.mp hneg)]
    ring

/-! ### Whether the move is made -/

/-- The tests that a move to the vertex undergoes, where the vertex is `s` away from the best point. -/
theorem vertexMove_eq (tol : ℝ) (hq : 0 < b.vertex.2) (hp : b.vertex.1 = b.vertex.2 * s) :
    b.vertexMove tol =
      if b.resolution tol < |b.last.reach| ∧ |s| < |b.last.reach| / 2 ∧ b.lo < b.best.x + s ∧
          b.best.x + s < b.hi then
        if b.best.x + s - b.lo < 2 * b.resolution tol ∨
            b.hi - (b.best.x + s) < 2 * b.resolution tol then
          some ⟨if b.best.x ≤ b.middle then b.resolution tol else -b.resolution tol, b.last.step⟩
        else some ⟨s, b.last.step⟩
      else none := by
  unfold vertexMove
  generalize b.vertex = v at hq hp
  obtain ⟨p, q⟩ := v
  simp only at hq hp
  subst hp
  have hreach : |q * s| < |0.5 * q * b.last.reach| ↔ |s| < |b.last.reach| / 2 := by
    have hhalf : |0.5 * q * b.last.reach| = q * (|b.last.reach| / 2) := by
      rw [abs_mul, abs_mul, abs_of_pos hq]
      norm_num
      ring
    rw [hhalf, abs_mul, abs_of_pos hq, mul_lt_mul_iff_right₀ hq]
  have hlo : q * (b.lo - b.best.x) < q * s ↔ b.lo < b.best.x + s := by
    rw [mul_lt_mul_iff_right₀ hq, sub_lt_iff_lt_add']
  have hhi : q * s < q * (b.hi - b.best.x) ↔ b.best.x + s < b.hi := by
    rw [mul_lt_mul_iff_right₀ hq, lt_sub_iff_add_lt']
  have hquotient : q * s / q = s := mul_div_cancel_left₀ s hq.ne'
  have htwo : (2.0 : ℝ) = 2 := by norm_num
  simp only [magnitude_real, hreach, hlo, hhi, hquotient, htwo, ← ite_and]

/-- What a bracket makes of three points of a parabola with its bottom at `m`. -/
structure FindsVertex (b : Bracket ℝ) (tol m : ℝ) : Prop where
  /-- The denominator is positive. -/
  positive : 0 < b.vertex.2
  /-- The quotient leads to the bottom. -/
  quotient : b.vertex.1 / b.vertex.2 = m - b.best.x
  /-- The move is made if the reach allows it, the bottom lies inside, and it is less than half the
  reach away. -/
  accepted : (b.vertexMove tol).isSome ↔ b.resolution tol < |b.last.reach| ∧
    |m - b.best.x| < |b.last.reach| / 2 ∧ b.lo < m ∧ m < b.hi
  /-- If it is made, the bottom is not too close to the ends, and the move is not too short, it is made
  as it is. -/
  proposal : (b.vertexMove tol).isSome → 2 * b.resolution tol ≤ m - b.lo →
    2 * b.resolution tol ≤ b.hi - m → b.resolution tol ≤ |m - b.best.x| → b.proposal tol = m

/-- **A bracket finds the bottom of a parabola that opens upward.** -/
theorem Interpolates.findsVertex (h : b.Interpolates A m C) (hA : 0 < A) (tol : ℝ) :
    b.FindsVertex tol m := by
  obtain ⟨hq, hp⟩ := h.vertex hA.ne'
  have hm : b.best.x + (m - b.best.x) = m := add_sub_cancel _ _
  have hmove := vertexMove_eq tol hq hp
  rw [hm] at hmove
  have haccepted : (b.vertexMove tol).isSome ↔ b.resolution tol < |b.last.reach| ∧
      |m - b.best.x| < |b.last.reach| / 2 ∧ b.lo < m ∧ m < b.hi := by
    rw [hmove]
    split_ifs with hsafe <;> simp only [hsafe, Option.isSome_some, Option.isSome_none,
      and_self, Bool.false_eq_true]
  refine ⟨hq, by rw [hp, mul_div_cancel_left₀ _ hq.ne'], haccepted, fun hsome hlo hhi hfar => ?_⟩
  have hclear : ¬ (m - b.lo < 2 * b.resolution tol ∨ b.hi - m < 2 * b.resolution tol) :=
    not_or.mpr ⟨hlo.not_gt, hhi.not_gt⟩
  rw [if_pos (haccepted.mp hsome), if_neg hclear] at hmove
  have hmove' : b.move tol = ⟨m - b.best.x, b.last.step⟩ := by
    rw [move, hmove, Option.getD_some]
  rw [proposal_of_move hmove' hfar, hm]

end Bracket

namespace Search

variable {lo hi tol A m C : ℝ} {φ : ℝ → ℝ} {maxFev : ℕ} {b : Bracket ℝ}
  {done : Dialogue.Record (fun _ : ℝ => ℝ)}

/-- Where a search of a parabola stands after three evaluations or more, the bracket has three points
of it. -/
theorem StandsAt.interpolates (h : StandsAt lo hi tol done b) (hlt : lo < hi) (htol : 0 < tol)
    (hmany : 3 ≤ done.length)
    (hvalues : ∀ e ∈ done, e.answer = A * (e.question - m) ^ 2 + C) : b.Interpolates A m C := by
  have hkeeps := h.keepsBest hlt htol
  have hsamples : ∀ p ∈ samples done, p.f = A * (p.x - m) ^ 2 + C := List.forall_mem_map.mpr hvalues
  have hmany' : 3 ≤ (samples done).length := by rwa [samples, List.length_map]
  obtain ⟨hbest, hsecond, hthird⟩ := hkeeps.known
  exact ⟨hsamples _ hbest, hsamples _ hsecond, hsamples _ hthird, hkeeps.distinct hmany'⟩

/-- On a function that is a parabola on the interval, its values are those of the parabola. -/
theorem value_of_mem_exchanged (hlt : lo < hi) (htol : 0 < tol)
    (hφ : ∀ t ∈ Set.Icc lo hi, φ t = A * (t - m) ^ 2 + C) (maxFev : ℕ) :
    ∀ e ∈ (boundedBrent lo hi tol maxFev).exchanged φ,
      e.answer = A * (e.question - m) ^ 2 + C := by
  intro e he
  obtain ⟨hends, hanswers⟩ := Dialogue.ends_exchanged φ (boundedBrent lo hi tol maxFev)
  obtain ⟨hlo, hhi⟩ := mem_Ioo_of_asks_boundedBrent hlt htol (hends.asks e he)
  rw [hanswers e he, hφ _ ⟨hlo.le, hhi.le⟩]

/-- **A search that looks at the bottom of a parabola returns it.** -/
theorem best_of_mem_exchanged (hlt : lo < hi) (htol : 0 < tol) (hA : 0 < A)
    (hφ : ∀ t ∈ Set.Icc lo hi, φ t = A * (t - m) ^ 2 + C)
    (h : ∃ e ∈ (boundedBrent lo hi tol maxFev).exchanged φ, e.question = m) :
    ((boundedBrent lo hi tol maxFev).answered φ).best = ⟨m, C⟩ := by
  have hvalues := value_of_mem_exchanged hlt htol hφ maxFev
  obtain ⟨hends, -⟩ := Dialogue.ends_exchanged φ (boundedBrent lo hi tol maxFev)
  generalize (boundedBrent lo hi tol maxFev).exchanged φ = u at h hends hvalues
  generalize ((boundedBrent lo hi tol maxFev).answered φ) = found at hends
  have hsamples : ∀ p ∈ samples u, p.f = A * (p.x - m) ^ 2 + C := List.forall_mem_map.mpr hvalues
  have hbest : found.best.f = A * (found.best.x - m) ^ 2 + C :=
    hsamples _ (best_mem_of_ends_boundedBrent hends)
  have hmin := isLatestMin_of_ends_boundedBrent hends fun _ _ => isNumber_real _
  obtain ⟨e, he, rfl⟩ := h
  have hle : found.best.f ≤ e.answer := hmin.1 ⟨e.question, e.answer⟩ (List.mem_map_of_mem he)
  have hsq : A * (found.best.x - e.question) ^ 2 = 0 := by
    have hbottom : e.answer = C := by rw [hvalues e he]; ring
    have hnonneg := mul_nonneg hA.le (sq_nonneg (found.best.x - e.question))
    linarith
  have hx : found.best.x = e.question := by
    simpa [hA.ne', sub_eq_zero] using hsq
  have hf : found.best.f = C := by rw [hbest, hsq, zero_add]
  rw [← hx, ← hf]

/-- Every budget that allows another evaluation leads a search to its next point. -/
theorem StandsAt.mem_exchanged (h : StandsAt lo hi tol done b) (hres : ¬ b.IsResolved tol)
    (hvalues : ∀ e ∈ done, e.answer = φ e.question) (hmax : done.length < maxFev) :
    ∃ rest, (boundedBrent lo hi tol maxFev).exchanged φ =
      done ++ ⟨b.proposal tol, φ (b.proposal tol)⟩ :: rest := by
  obtain ⟨left, hleft⟩ := Nat.exists_eq_succ_of_ne_zero (Nat.sub_ne_zero_of_lt hmax)
  have hreaches := (h.reaches (hmax.le.trans (le_max_right _ _))).exchanged_eq hvalues
  rw [hreaches, hleft, refine, if_neg hres]
  exact ⟨_, congrArg (done ++ ·) (Dialogue.exchanged_ask φ _ _)⟩

/-- A search that goes on from a bracket makes a pass. -/
theorem pass_of_ends {left spent : ℕ} {e : Dialogue.Exchange (fun _ : ℝ => ℝ)}
    {rest : Dialogue.Record (fun _ : ℝ => ℝ)} {found : Found ℝ}
    (h : (refine tol left spent b).Ends (e :: rest) found) :
    ¬ b.IsResolved tol ∧ e.question = b.proposal tol := by
  obtain ⟨b', hrefines, -⟩ := refines_of_ends h
  cases hrefines with
  | pass hres _ => exact ⟨hres, rfl⟩

/-- **Each pass of a search of a parabola finds its bottom**, from the fourth evaluation on. If it looks
there, the search returns it, whatever it may still evaluate. -/
theorem findsVertex_of_exchanged (hlt : lo < hi) (htol : 0 < tol) (hA : 0 < A)
    (hφ : ∀ t ∈ Set.Icc lo hi, φ t = A * (t - m) ^ 2 + C) (maxFev : ℕ)
    (done rest : Dialogue.Record (fun _ : ℝ => ℝ)) (e : Dialogue.Exchange (fun _ : ℝ => ℝ))
    (hrecord : (boundedBrent lo hi tol maxFev).exchanged φ = done ++ e :: rest)
    (hmany : 3 ≤ done.length) :
    ∃ b, StandsAt lo hi tol done b ∧ e.question = b.proposal tol ∧ b.FindsVertex tol m ∧
      (b.proposal tol = m → ∀ maxFev', done.length < maxFev' →
        ((boundedBrent lo hi tol maxFev').answered φ).best = ⟨m, C⟩) := by
  obtain ⟨hends, hanswers⟩ := Dialogue.ends_exchanged φ (boundedBrent lo hi tol maxFev)
  have hvalues := value_of_mem_exchanged hlt htol hφ maxFev
  rw [hrecord] at hends hanswers hvalues
  obtain ⟨hanswers, -⟩ := List.forall_mem_append.mp hanswers
  obtain ⟨hvalues, -⟩ := List.forall_mem_append.mp hvalues
  obtain ⟨d, hreaches, hrest⟩ := hends.split
  obtain ⟨b, hstands, rfl⟩ := standsAt_of_reaches hreaches (by rintro rfl; simp at hmany)
  obtain ⟨hres, hquestion⟩ := pass_of_ends hrest
  refine ⟨b, hstands, hquestion, (hstands.interpolates hlt htol hmany hvalues).findsVertex hA tol,
    fun hm maxFev' hmax => best_of_mem_exchanged hlt htol hA hφ ?_⟩
  obtain ⟨rest', hrecord'⟩ := hstands.mem_exchanged hres hanswers hmax
  rw [hrecord']
  exact ⟨_, List.mem_append_right _ List.mem_cons_self, hm⟩

/-- A parabola on the unit interval: the fourth evaluation is at its bottom. -/
theorem findsVertex_of_exchanged_quarter :
    let φ : ℝ → ℝ := fun t => 2 * (t - 1 / 4) ^ 2 + 1
    (0 : ℝ) < 1 ∧ (0 : ℝ) < 1 / 100 ∧ (0 : ℝ) < 2 ∧
      (∀ t ∈ Set.Icc (0 : ℝ) 1, φ t = 2 * (t - 1 / 4) ^ 2 + 1) ∧
      ∃ done e rest, (boundedBrent 0 1 (1 / 100) 10).exchanged φ = done ++ e :: rest ∧
        done.length = 3 ∧ e.question = 1 / 4 ∧
        ((boundedBrent 0 1 (1 / 100) 50).answered φ).best = ⟨1 / 4, 1⟩ := by
  intro φ
  let g : ℝ := Bracket.goldenMean
  obtain ⟨hlo, hhi⟩ : 19 / 50 < g ∧ g < 2 / 5 := Bracket.goldenMean_near
  let exchange (x : ℝ) : Dialogue.Exchange (fun _ : ℝ => ℝ) := ⟨x, φ x⟩
  let point (x : ℝ) : Sample ℝ := ⟨x, φ x⟩
  let done := [exchange g, exchange (1 - g), exchange (1 - 2 * g)]
  let b : Bracket ℝ := ⟨0, g, point (1 - 2 * g), point g, point (1 - g), ⟨1 - 3 * g, -g⟩⟩
  have hrise : φ g < φ (1 - g) := by
    simp only [φ]
    nlinarith
  have hfall : φ (1 - 2 * g) ≤ φ g := by
    simp only [φ]
    nlinarith
  have hstands : StandsAt 0 1 (1 / 100) done b := standsAt_unit le_rfl hrise hfall
  have hlt : (0 : ℝ) < 1 := one_pos
  have htol : (0 : ℝ) < 1 / 100 := by norm_num
  have hA : (0 : ℝ) < 2 := two_pos
  have hφ : ∀ t ∈ Set.Icc (0 : ℝ) 1, φ t = 2 * (t - 1 / 4) ^ 2 + 1 := fun _ _ => rfl
  have habs : |1 - 2 * g| ≤ 1 := abs_le.mpr ⟨by linarith, by linarith⟩
  have hres : b.resolution (1 / 100) ≤ 1 / 250 := Bracket.resolution_le habs le_rfl
  have hopen : ¬ b.IsResolved (1 / 100) :=
    Bracket.not_isResolved_of_lt_length (show 4 * b.resolution (1 / 100) < g - 0 by linarith)
  have hanswers : ∀ e ∈ done, e.answer = φ e.question := by simp [done, exchange]
  obtain ⟨rest, hrecord⟩ := hstands.mem_exchanged hopen hanswers (show 3 < 10 by decide)
  obtain ⟨b', hstands', hquestion, hfinds, hreturns⟩ :=
    findsVertex_of_exchanged hlt htol hA hφ 10 done rest _ hrecord le_rfl
  obtain rfl := hstands.unique hstands'
  have hreach : |b.last.reach| = g := by
    change |(-g)| = g
    rw [abs_neg, abs_of_pos (by linarith)]
  have hdistance : |1 / 4 - b.best.x| = 2 * g - 3 / 4 := by
    change |1 / 4 - (1 - 2 * g)| = _
    rw [abs_of_pos (by linarith)]
    ring
  have hsome : (b.vertexMove (1 / 100)).isSome := by
    refine hfinds.accepted.mpr ⟨?_, ?_, show (0 : ℝ) < 1 / 4 by norm_num, show 1 / 4 < g by linarith⟩
    · rw [hreach]
      linarith
    · rw [hdistance, hreach]
      linarith
  have hbottom : b.proposal (1 / 100) = 1 / 4 :=
    hfinds.proposal hsome (show 2 * b.resolution (1 / 100) ≤ 1 / 4 - 0 by linarith)
      (show 2 * b.resolution (1 / 100) ≤ g - 1 / 4 by linarith) (by rw [hdistance]; linarith)
  exact ⟨hlt, htol, hA, hφ, done, _, rest, hrecord, rfl, hbottom, hreturns hbottom 50 (by decide)⟩

end Search

end Optimum

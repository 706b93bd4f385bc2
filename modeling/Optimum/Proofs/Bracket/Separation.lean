import Mathlib.Tactic.Linarith
import Optimum.Proofs.Bracket.Best
import Optimum.Proofs.Bracket.Interior

/-!
# Where a search looks, and when it ends

In exact arithmetic every point that Brent's search has looked at, apart from the best one, lies at an
end of the interval or beyond it. A new point lies inside, and keeps clear of the best point; so no
point is looked at twice. It keeps clear of both ends as well, and so does the best point from the
first pass on. So wherever a pass cuts the interval, it takes off more than a third of the tolerance,
and the search ends by itself.

## What is proved

* `Bracket.Surveys.advance`: what a bracket says of the points visited is true after a pass as well.
* `Bracket.Roomy.advance`: a pass leaves the best point room, and takes off a third of the tolerance.
* `Search.Refines.isResolved`: with evaluations enough for the length of the interval, the bracket is
  resolved at the end.
* `Search.settles_of_record`: a search on any function, also one that keeps a state.
-/

namespace Optimum

open Scalar

namespace Bracket

variable {b : Bracket ℝ} {tol lo hi : ℝ} {new best : Sample ℝ} {visited : List (Sample ℝ)}

/-! ### The points visited -/

/-- What a bracket says of the points visited. -/
structure Surveys (b : Bracket ℝ) (visited : List (Sample ℝ)) : Prop where
  /-- The best of them is its best point. -/
  best : b.best.IsLatestMin visited
  /-- No other one lies inside the interval. -/
  outside : ∀ s ∈ visited, b.lo < s.x → s.x < b.hi → s.x = b.best.x

/-- After a cut at a point of the inside, only the best point lies inside. -/
theorem Surveys.outside_of_cut (hv : b.Surveys visited) (hb : b.Proper) (hlo : b.lo < new.x)
    (hhi : new.x < b.hi) (h : b.Cut new lo hi best) :
    ∀ s ∈ visited ++ [new], lo < s.x → s.x < hi → s.x = best.x := by
  obtain ⟨hlo', hhi'⟩ := hb
  refine List.forall_mem_append.mpr ⟨fun s hs hslo hshi => ?_, List.forall_mem_singleton.mpr ?_⟩
  · have hs := hv.outside s hs
    cases h with
    | betterAbove _ _ => exact absurd (hs (hlo'.trans hslo) hshi) hslo.ne'
    | betterBelow _ _ => exact absurd (hs hslo (hshi.trans hhi')) hshi.ne
    | worseBelow _ _ => exact hs (hlo.trans hslo) hshi
    | worseAbove _ _ => exact hs hslo (hshi.trans hhi)
  · intro hslo hshi
    cases h with
    | betterAbove _ _ => rfl
    | betterBelow _ _ => rfl
    | worseBelow _ _ => exact absurd hslo (lt_irrefl _)
    | worseAbove _ _ => exact absurd hshi (lt_irrefl _)

/-- **A bracket goes on to survey all points visited.** -/
theorem Surveys.advance (hv : b.Surveys visited) (hb : b.Proper) (htol : 0 < tol)
    (h : ¬ b.IsResolved tol) (f : ℝ) :
    (b.advance tol f).Surveys (visited ++ [⟨b.proposal tol, f⟩]) := by
  obtain ⟨hlo, hhi, -⟩ := hb.proposal htol h
  have hcut := b.cut_advance tol f
  exact ⟨hcut.isLatestMin hv.best (isNumber_real _) (isNumber_real _),
    hv.outside_of_cut hb hlo hhi hcut⟩

/-- A new point has not been visited. -/
theorem Surveys.proposal_notMem (hv : b.Surveys visited) (hb : b.Proper) (htol : 0 < tol)
    (h : ¬ b.IsResolved tol) : b.proposal tol ∉ visited.map Sample.x := by
  obtain ⟨hlo, hhi, hne⟩ := hb.proposal htol h
  intro hmem
  obtain ⟨s, hs, heq⟩ := List.mem_map.mp hmem
  rw [← heq] at hlo hhi hne
  exact hne (hv.outside s hs hlo hhi)

/-! ### The length of the interval -/

/-- The length of the interval. -/
def length (b : Bracket ℝ) : ℝ := b.hi - b.lo

/-- The best point is more than a third of the tolerance away from both ends. -/
structure Roomy (b : Bracket ℝ) (tol : ℝ) : Prop where
  /-- Below it. -/
  below : b.lo + tol / 3 ≤ b.best.x
  /-- Above it. -/
  above : b.best.x + tol / 3 ≤ b.hi

theorem Roomy.proper (hb : b.Roomy tol) (htol : 0 < tol) : b.Proper :=
  ⟨by linarith [hb.below], by linarith [hb.above]⟩

/-- A cut at a point that has room takes off what was below or above a point. -/
theorem Roomy.cut {ρ : ℝ} (hb : b.Roomy tol) (hρ : tol / 3 ≤ ρ) (hlo : b.lo + ρ ≤ new.x)
    (hhi : new.x + ρ ≤ b.hi) (hfar : ρ ≤ |new.x - b.best.x|) (h : b.Cut new lo hi best) :
    (lo + tol / 3 ≤ best.x ∧ best.x + tol / 3 ≤ hi) ∧ hi - lo + tol / 3 ≤ b.length := by
  obtain ⟨hbelow, habove⟩ := hb
  unfold length
  cases h with
  | betterAbove _ hx =>
    rw [abs_of_nonneg (by linarith)] at hfar
    exact ⟨⟨by linarith, by linarith⟩, by linarith⟩
  | betterBelow _ hx =>
    rw [abs_of_nonpos (by linarith)] at hfar
    exact ⟨⟨by linarith, by linarith⟩, by linarith⟩
  | worseBelow _ hx =>
    rw [abs_of_nonpos (by linarith)] at hfar
    exact ⟨⟨by linarith, by linarith⟩, by linarith⟩
  | worseAbove _ hx =>
    rw [abs_of_nonneg (by linarith)] at hfar
    exact ⟨⟨by linarith, by linarith⟩, by linarith⟩

/-- **A pass leaves the best point room, and takes off a third of the tolerance.** -/
theorem Roomy.advance (hb : b.Roomy tol) (htol : 0 < tol) (h : ¬ b.IsResolved tol) (f : ℝ) :
    (b.advance tol f).Roomy tol ∧ (b.advance tol f).length + tol / 3 ≤ b.length := by
  obtain ⟨hlo, hhi, hfar⟩ := (hb.proper htol).clear_proposal htol h
  obtain ⟨⟨hbelow, habove⟩, hlength⟩ :=
    hb.cut (b.third_le_resolution tol) hlo hhi hfar (b.cut_advance tol f)
  exact ⟨⟨hbelow, habove⟩, hlength⟩

/-- A search whose bracket is not resolved at once begins with room. -/
theorem roomy_init {f : ℝ} (hlt : lo < hi)
    (h : ¬ (init lo hi ⟨start lo hi, f⟩).IsResolved tol) :
    (init lo hi ⟨start lo hi, f⟩).Roomy tol := by
  obtain ⟨hg, hg'⟩ := goldenMean_real_mem
  have hthird := (init lo hi ⟨start lo hi, f⟩).third_le_resolution tol
  have hpos : 0 < hi - lo := sub_pos.mpr hlt
  have hbelow : 1 / 3 * (hi - lo) < goldenMean * (hi - lo) := mul_lt_mul_of_pos_right hg hpos
  have habove : goldenMean * (hi - lo) < 1 / 2 * (hi - lo) := mul_lt_mul_of_pos_right hg' hpos
  have hroom := (room_of_not_isResolved h).2 (by
    rw [middle_real]
    simp only [init, start]
    linarith)
  simp only [init, start] at hroom hthird ⊢
  constructor <;> linarith

end Bracket

namespace Search

variable {b b' : Bracket ℝ} {tol lo hi : ℝ} {left maxFev : ℕ}
  {u : Dialogue.Record (fun _ : ℝ => ℝ)} {visited : List (Sample ℝ)} {found : Found ℝ}

/-! ### Passes in sequence -/

/-- **Passes look at new points only**, and each keeps clear of the best point known before it. -/
theorem Refines.separates (h : Refines tol left b u b') (htol : 0 < tol) (hb : b.Proper)
    (hv : b.Surveys visited) (hvisited : (visited.map Sample.x).Nodup) :
    ((visited ++ samples u).map Sample.x).Nodup ∧
      ∀ before e after, u = before ++ e :: after →
        ∃ best : Sample ℝ, best.IsLatestMin (visited ++ samples before) ∧
          sqrt epsilon * |best.x| + tol / 3 ≤ |e.question - best.x| := by
  induction h generalizing visited with
  | halts _ =>
    refine ⟨by simpa [samples] using hvisited, fun before e after heq => ?_⟩
    simp at heq
  | @pass _ b _ f u hres _ ih =>
    obtain ⟨hb', -, -⟩ := hb.advance htol hres f
    obtain ⟨-, -, hfar⟩ := hb.clear_proposal htol hres
    have hnodup : ((visited ++ [(⟨b.proposal tol, f⟩ : Sample ℝ)]).map Sample.x).Nodup := by
      rw [List.map_append]
      exact hvisited.append (List.nodup_singleton _)
        (List.disjoint_singleton.mpr (hv.proposal_notMem hb htol hres))
    obtain ⟨hall, hclear⟩ := ih hb' (hv.advance hb htol hres f) hnodup
    rw [List.append_assoc] at hall
    refine ⟨hall, fun before e after heq => ?_⟩
    cases before with
    | nil =>
      obtain ⟨rfl, -⟩ := List.cons.inj heq
      rw [Bracket.resolution_real] at hfar
      exact ⟨b.best, by simpa [samples] using hv.best, hfar⟩
    | cons c before =>
      obtain ⟨rfl, hrest⟩ := List.cons.inj heq
      obtain ⟨best, hbest, hfar⟩ := hclear before e after hrest
      rw [List.append_assoc] at hbest
      exact ⟨best, hbest, hfar⟩

/-- **Each pass takes its share of the interval.** -/
theorem Refines.length_le (h : Refines tol left b u b') (htol : 0 < tol) (hb : b.Roomy tol) :
    b'.Roomy tol ∧ b'.length + u.length * (tol / 3) ≤ b.length := by
  induction h with
  | halts _ => exact ⟨hb, by simp⟩
  | @pass _ b _ f u hres _ ih =>
    obtain ⟨hb', hlength⟩ := hb.advance htol hres f
    obtain ⟨hroomy, hrest⟩ := ih hb'
    refine ⟨hroomy, ?_⟩
    rw [List.length_cons]
    push_cast
    linarith

/-! ### Whole searches -/

variable {f : ℝ}

/-- The passes of a search are fewer than thirds of the tolerance fit into its interval. -/
theorem Refines.length_lt (h : Refines tol left (.init lo hi ⟨Bracket.start lo hi, f⟩) u b')
    (hlt : lo < hi) (htol : 0 < tol) : (u.length : ℝ) < 3 * (hi - lo) / tol := by
  by_cases hres : (Bracket.init lo hi ⟨Bracket.start lo hi, f⟩).IsResolved tol
  · have hnil : u = [] := by
      cases h with
      | halts _ => rfl
      | pass hres' _ => exact absurd hres hres'
    have hpos : 0 < 3 * (hi - lo) / tol := div_pos (by linarith) htol
    simpa [hnil] using hpos
  · obtain ⟨hroomy, hlength⟩ := h.length_le htol (Bracket.roomy_init hlt hres)
    obtain ⟨hlo, hhi⟩ := hroomy.proper htol
    simp only [Bracket.length, Bracket.init] at hlength
    rw [lt_div_iff₀ htol]
    linarith

/-- **With evaluations enough for the length of the interval, the bracket is resolved at the end.** -/
theorem Refines.isResolved
    (h : Refines tol (maxFev - 1) (.init lo hi ⟨Bracket.start lo hi, f⟩) u b') (hlt : lo < hi)
    (htol : 0 < tol) (hmax : 1 + 3 * (hi - lo) / tol ≤ maxFev) : b'.IsResolved tol := by
  by_contra hres
  have hlength := h.length_lt hlt htol
  have hspent : (maxFev : ℝ) ≤ u.length + 1 := by
    rw [h.length_eq hres]
    exact_mod_cast (show maxFev ≤ maxFev - 1 + 1 by omega)
  linarith

/-- What is known of the result of a search and its record. -/
structure Settles (lo hi tol : ℝ) (maxFev : ℕ) (out : Found ℝ × Dialogue.Record (fun _ : ℝ => ℝ)) :
    Prop where
  /-- All points lie strictly inside the interval. -/
  inside : ∀ e ∈ out.2, lo < e.question ∧ e.question < hi
  /-- No point is looked at twice. -/
  distinct : (out.2.map (·.question)).Nodup
  /-- Each point after the first keeps clear of the best one known at that moment. -/
  clear : ∀ before e after, out.2 = before ++ e :: after → before ≠ [] →
    ∃ best : Sample ℝ, best.IsLatestMin (samples before) ∧
      sqrt epsilon * |best.x| + tol / 3 ≤ |e.question - best.x|
  /-- There are at most so many, whatever the budget. -/
  few : (out.2.length : ℝ) ≤ 1 + 3 * (hi - lo) / tol
  /-- The result says how many. -/
  counted : out.1.evaluations = out.2.length
  /-- With a budget of that size the search is not stopped before its bracket is resolved. -/
  resolved : 1 + 3 * (hi - lo) / tol ≤ maxFev → out.1.stopped = false

/-- **A search stays inside its interval, looks at no point twice, and ends by itself**, whatever the
function, also if it keeps a state. -/
theorem settles_of_record {σ : Type} (φ : ℝ → StateM σ ℝ) (hlt : lo < hi) (htol : 0 < tol)
    (maxFev : ℕ) (s : σ) :
    Settles lo hi tol maxFev (((boundedBrent lo hi tol maxFev).record φ).run s).1 := by
  generalize hout : (((boundedBrent lo hi tol maxFev).record φ).run s).1 = out
  have hends : (boundedBrent lo hi tol maxFev).Ends out.2 out.1 := by
    rw [← hout]
    exact Dialogue.ends_record _ s
  obtain ⟨f, u, b', hrecord, hrefines, hfound⟩ := refines_of_ends_boundedBrent hends
  let first : Sample ℝ := ⟨Bracket.start lo hi, f⟩
  have hv : (Bracket.init lo hi first).Surveys [first] :=
    ⟨Sample.isLatestMin_singleton (isNumber_real _), List.forall_mem_singleton.mpr fun _ _ => rfl⟩
  obtain ⟨hnodup, hclear⟩ :=
    hrefines.separates htol (proper_init hlt f) hv (List.nodup_singleton _)
  have hlength := hrefines.length_lt hlt htol
  have hsamples : [first] ++ samples u = samples out.2 := by rw [hrecord]; rfl
  refine ⟨fun e he => mem_Ioo_of_asks_boundedBrent hlt htol (hends.asks e he), ?_, ?_, ?_,
    by rw [hfound], fun hmax => ?_⟩
  · rwa [hsamples, samples, List.map_map] at hnodup
  · intro before e after heq hne
    obtain ⟨c, before, rfl⟩ := List.exists_cons_of_ne_nil hne
    rw [hrecord] at heq
    obtain ⟨rfl, hrest⟩ := List.cons.inj heq
    exact hclear before e after hrest
  · rw [hrecord, List.length_cons]
    push_cast
    linarith
  · rw [hfound]
    exact decide_eq_false (not_not.mpr (hrefines.isResolved hlt htol hmax))

/-- A search on a parabola that sinks with every call, with a budget that it cannot spend. -/
theorem settles_of_record_sinkingParabola :
    let φ : ℝ → StateM ℕ ℝ := fun x calls => ((x - 1 / 4) ^ 2 - calls, calls + 1)
    let out := (((boundedBrent 0 1 (1 / 10) 1000).record φ).run 0).1
    (0 : ℝ) < 1 ∧ (0 : ℝ) < 1 / 10 ∧ Settles 0 1 (1 / 10) 1000 out ∧ out.2.length ≤ 31 ∧
      out.1.stopped = false := by
  intro φ out
  have hlt : (0 : ℝ) < 1 := one_pos
  have htol : (0 : ℝ) < 1 / 10 := by norm_num
  have hsettles : Settles 0 1 (1 / 10) 1000 out := settles_of_record φ hlt htol 1000 0
  have hlength : (out.2.length : ℝ) ≤ 31 := hsettles.few.trans (by norm_num)
  exact ⟨hlt, htol, hsettles, by exact_mod_cast hlength, hsettles.resolved (by norm_num)⟩

end Search

end Optimum

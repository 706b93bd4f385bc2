import Optimum.Proofs.Bracket.Passes
import Optimum.Proofs.Scalar.Order

/-!
# The best point of a search

A search returns the best of the points that it has evaluated, and the last one of several that are
equally good. Which of two points stays the best is decided by their values alone. So this holds on
every interval, also one with its ends out of order or undefined, and for every tolerance; of the values
only that they are numbers is used, and that numbers are totally ordered.

The function that is searched may fail (`Dialogue.attempt`). Its first failure is what the search
returns then.

## What is proved

* `Bracket.Cut.isLatestMin`: a pass keeps the best point up to date; by induction on the passes,
  `Search.Refines.isLatestMin`.
* `Search.returnsBest_of_record`: what a search returns, on any function that may keep a state and may
  fail.
-/

namespace Optimum

open Scalar

variable {α : Type} [Scalar α]

namespace Sample

variable {s new : Sample α} {points : List (Sample α)}

/-- A point is the last one of those with the least value. -/
def IsLatestMin (s : Sample α) (points : List (Sample α)) : Prop :=
  (∀ p ∈ points, s.f ≤ p.f) ∧
    ∃ before after, points = before ++ s :: after ∧ ∀ p ∈ after, s.f < p.f

theorem IsLatestMin.mem (h : s.IsLatestMin points) : s ∈ points := by
  obtain ⟨-, before, after, rfl, -⟩ := h
  exact List.mem_append_right before List.mem_cons_self

variable [OrdersNumbers α]

/-- What is less than the least value is less than all. -/
theorem IsLatestMin.forall_lt (h : s.IsLatestMin points) {v : α} (hv : v < s.f) :
    ∀ p ∈ points, v < p.f := fun p hp => OrdersNumbers.lt_of_lt_of_le hv (h.1 p hp)

theorem isLatestMin_singleton (hs : IsNumber s.f) : s.IsLatestMin [s] :=
  ⟨List.forall_mem_singleton.mpr (OrdersNumbers.le_self hs), [], [], rfl, nofun⟩

/-- A new point that is no worse takes the place of the best. -/
theorem IsLatestMin.append_of_le (h : s.IsLatestMin points) (hnew : IsNumber new.f)
    (hle : new.f ≤ s.f) : new.IsLatestMin (points ++ [new]) := by
  refine ⟨List.forall_mem_append.mpr ⟨fun p hp => ?_, ?_⟩, points, [], rfl, nofun⟩
  · exact OrdersNumbers.le_trans hle (h.1 p hp)
  · exact List.forall_mem_singleton.mpr (OrdersNumbers.le_self hnew)

/-- Otherwise the best point stays. -/
theorem IsLatestMin.append_of_lt (h : s.IsLatestMin points) (hlt : s.f < new.f) :
    s.IsLatestMin (points ++ [new]) := by
  obtain ⟨hmin, before, after, rfl, hafter⟩ := h
  refine ⟨List.forall_mem_append.mpr ⟨hmin, ?_⟩, before, after ++ [new], by simp, ?_⟩
  · exact List.forall_mem_singleton.mpr (OrdersNumbers.le_of_lt hlt)
  · exact List.forall_mem_append.mpr ⟨hafter, List.forall_mem_singleton.mpr hlt⟩

end Sample

variable [OrdersNumbers α]

/-- **A pass keeps the best point up to date**, if the values are numbers. -/
theorem Bracket.Cut.isLatestMin {b : Bracket α} {lo hi : α} {new best : Sample α}
    {points : List (Sample α)} (h : b.Cut new lo hi best) (hbest : b.best.IsLatestMin points)
    (hold : IsNumber b.best.f) (hnew : IsNumber new.f) : best.IsLatestMin (points ++ [new]) := by
  cases h with
  | betterAbove hle _ => exact hbest.append_of_le hnew hle
  | betterBelow hle _ => exact hbest.append_of_le hnew hle
  | worseBelow hgt _ => exact hbest.append_of_lt (OrdersNumbers.lt_of_not_le hnew hold hgt)
  | worseAbove hgt _ => exact hbest.append_of_lt (OrdersNumbers.lt_of_not_le hnew hold hgt)

namespace Search

/-! ### Functions that give values -/

section Values

variable {tol lo hi : α} {left maxFev : ℕ} {b b' : Bracket α} {points : List (Sample α)}
  {u : Dialogue.Record (fun _ : α => α)} {found : Found α}

/-- After any number of passes the best point is the last one of those with the least value. -/
theorem Refines.isLatestMin (h : Refines tol left b u b') (hb : b.best.IsLatestMin points)
    (hnumbers : ∀ p ∈ points ++ samples u, IsNumber p.f) :
    b'.best.IsLatestMin (points ++ samples u) := by
  induction h generalizing points with
  | halts _ => simpa [samples] using hb
  | @pass _ b _ f u _ _ ih =>
    have hsplit : points ++ samples (⟨b.proposal tol, f⟩ :: u) =
        (points ++ [⟨b.proposal tol, f⟩]) ++ samples u := by simp [samples]
    rw [hsplit] at hnumbers ⊢
    obtain ⟨hpoints, hnew⟩ := List.forall_mem_append.mp (List.forall_mem_append.mp hnumbers).1
    exact ih ((b.cut_advance tol f).isLatestMin hb (hpoints _ hb.mem)
      (hnew _ (List.mem_singleton_self _))) hnumbers

/-- **A search returns the last of the points with the least value**, if all values are numbers. -/
theorem isLatestMin_of_ends_boundedBrent (h : (boundedBrent lo hi tol maxFev).Ends u found)
    (hnumbers : ∀ p ∈ samples u, IsNumber p.f) : found.best.IsLatestMin (samples u) := by
  obtain ⟨f, v, b', rfl, hrefines, rfl⟩ := refines_of_ends_boundedBrent h
  exact hrefines.isLatestMin (Sample.isLatestMin_singleton (hnumbers _ List.mem_cons_self)) hnumbers

omit [OrdersNumbers α] in
/-- A search evaluates its function. -/
theorem ne_nil_of_ends_boundedBrent (h : (boundedBrent lo hi tol maxFev).Ends u found) : u ≠ [] := by
  obtain ⟨f, v, b', rfl, -, -⟩ := refines_of_ends_boundedBrent h
  exact List.cons_ne_nil _ _

end Values

/-! ### Functions that may fail -/

section Failures

variable {ε : Type}

/-- The values that a function which may fail has given, with their points. -/
def attained (t : Dialogue.Record (fun _ : α => Except ε α)) : List (Sample α) :=
  t.filterMap fun e => e.answer.toOption.map fun f => ⟨e.question, f⟩

omit [Scalar α] [OrdersNumbers α] in
theorem attained_unfailing (u : Dialogue.Record (fun _ : α => α)) :
    attained (Dialogue.unfailing ε u) = samples u := by
  simp [attained, Dialogue.unfailing, samples, List.filterMap_map, Except.toOption]

/-- The result of a search of a function that may keep a state and fail, with its evaluations. -/
def boundedBrentOn {σ : Type} (φ : α → StateM σ (Except ε α)) (lo hi tol : α) (maxFev : ℕ) (s : σ) :
    Except ε (Found α) × Dialogue.Record (fun _ : α => Except ε α) :=
  ((((boundedBrent lo hi tol maxFev).attempt ε).record φ).run s).1

/-- What a search with a budget of `maxFev` evaluations returns, and what it has evaluated. -/
structure ReturnsBest (maxFev : ℕ)
    (out : Except ε (Found α) × Dialogue.Record (fun _ : α => Except ε α)) : Prop where
  /-- There is an evaluation. -/
  started : out.2 ≠ []
  /-- There are no more than the budget allows, or one. -/
  few : out.2.length ≤ max 1 maxFev
  /-- If an evaluation fails, its failure is returned, and no evaluation follows. -/
  failure : ∀ before x e after, out.2 = before ++ ⟨x, .error e⟩ :: after →
    after = [] ∧ out.1 = .error e
  /-- Otherwise there is a result. If all values are numbers, it is the last of the points with the
  least value. -/
  best : (∀ x e, ⟨x, .error e⟩ ∉ out.2) → ∃ found, out.1 = .ok found ∧
    ((∀ p ∈ attained out.2, IsNumber p.f) → found.best.IsLatestMin (attained out.2))

/-- **A search returns the best of its evaluations**, whatever function is searched: it may keep a
state, and fail. The result is that of the search in the monad of states and failures. -/
theorem returnsBest_of_record {σ : Type} (φ : α → StateM σ (Except ε α)) (lo hi tol : α)
    (maxFev : ℕ) (s : σ) :
    ReturnsBest maxFev (boundedBrentOn φ lo hi tol maxFev s) ∧
      (boundedBrentOn φ lo hi tol maxFev s).1 =
        (((boundedBrent lo hi tol maxFev).run fun x => ExceptT.mk (φ x)).run.run s).1 := by
  have hends : ((boundedBrent lo hi tol maxFev).attempt ε).Ends
      (boundedBrentOn φ lo hi tol maxFev s).2 (boundedBrentOn φ lo hi tol maxFev s).1 :=
    Dialogue.ends_record _ s
  have hbound := asksAtMost_boundedBrent lo hi tol maxFev
  refine ⟨?_, ?_⟩
  · generalize boundedBrentOn φ lo hi tol maxFev s = out at hends
    obtain ⟨r, t⟩ := out
    rcases hends.of_attempt with ⟨u, found, hu, rfl, rfl⟩ | ⟨u, x, next, e, hu, rfl, rfl⟩
    · refine ⟨?_, ?_, fun before y e' after h => ?_, fun _ => ⟨found, rfl, fun hnumbers => ?_⟩⟩
      · exact fun h => ne_nil_of_ends_boundedBrent hu (List.map_eq_nil_iff.mp h)
      · rw [Dialogue.unfailing, List.length_map]
        exact hbound.length_le hu
      · exact absurd (h ▸ List.mem_append_right _ List.mem_cons_self) Dialogue.error_notMem_unfailing
      · rw [attained_unfailing] at hnumbers ⊢
        exact isLatestMin_of_ends_boundedBrent hu hnumbers
    · refine ⟨by simp, ?_, fun before y e' after h => ?_, fun h => ?_⟩
      · have hlt := hbound.length_lt hu
        simpa [Dialogue.unfailing] using hlt
      · obtain ⟨rfl, heq⟩ := eq_last_of_append h (P := fun x => ∀ y e, x ≠ ⟨y, .error e⟩)
          (fun x hx y e heq => Dialogue.error_notMem_unfailing (heq ▸ hx)) (fun h => h y e' rfl)
        cases heq
        exact ⟨rfl, rfl⟩
      · exact absurd (List.mem_append_right _ List.mem_cons_self) (h x e)
  · rw [← Dialogue.run_attempt, ← Dialogue.fst_record]
    rfl

/-- A parabola that fails from the sixth call on. -/
def wearingParabola : Float → StateM ℕ (Except String Float) := fun x calls =>
  (if calls < 5 then .ok ((x - 0.25) * (x - 0.25)) else .error "worn out", calls + 1)

/-- Searches of it with no tolerance: one that ends in time, and one with a greater budget. -/
theorem returnsBest_of_record_wearingParabola :
    let out maxFev := boundedBrentOn wearingParabola 0 1 0 maxFev 0
    (∃ found, (out 5).1 = .ok found ∧ found.best.IsLatestMin (attained (out 5).2)) ∧
      (attained (out 5).2).length = 5 ∧ (out 9).1 = .error "worn out" ∧ (out 9).2.length = 6 := by
  intro out
  obtain ⟨hshort, -⟩ := returnsBest_of_record wearingParabola 0 1 0 5 0
  obtain ⟨hlong, -⟩ := returnsBest_of_record wearingParabola 0 1 0 9 0
  have hvalues : (∀ e ∈ (out 5).2, e.answer.isOk = true) ∧
      (∀ p ∈ attained (out 5).2, IsNumber p.f) ∧ (attained (out 5).2).length = 5 := by decide +kernel
  have hfails : (∃ e ∈ (out 9).2, e.answer = .error "worn out") ∧ (out 9).2.length = 6 := by
    decide +kernel
  obtain ⟨hok, hnumbers, hlength⟩ := hvalues
  obtain ⟨⟨⟨x, _⟩, hmem, rfl⟩, hlength'⟩ := hfails
  obtain ⟨found, hfound, hbest⟩ := hshort.best fun x e hmem => nomatch hok _ hmem
  obtain ⟨before, after, hsplit⟩ := List.append_of_mem hmem
  obtain ⟨-, hfailure⟩ := hlong.failure before x "worn out" after hsplit
  exact ⟨⟨found, hfound, hbest hnumbers⟩, hlength, hfailure, hlength'⟩

end Failures

end Search

end Optimum

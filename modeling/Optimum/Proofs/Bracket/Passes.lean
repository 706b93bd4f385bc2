import Mathlib.Tactic.SplitIfs
import Optimum.Bracket
import Optimum.Proofs.Paths

/-!
# Passes of a search

A pass of Brent's search takes in a point and cuts the interval, at the best point or at the new one.
`Bracket.Cut` says where, one case for each side and each outcome of the comparison, and what is known
of a pass is read off these cases. A search is a sequence of passes: `Search.Refines` relates the
bracket in which it begins, the points that it looks at, and the bracket in which it ends.

## What is proved

* `Bracket.cut_absorb`: a point that is taken in cuts the interval in one of the four ways.
* `Search.refines_of_ends`: a path of the search is a sequence of passes, and its result is the best
  point of the last bracket.
* `Search.standsAt_of_reaches` and `Search.StandsAt.reaches`: the brackets at which a search stands
  between its passes.
* `Search.Refines.preserves`: what every pass preserves holds at the end.
* `Search.best_mem_of_ends_boundedBrent`: the result of a search is one of the points evaluated, with
  the value found there.
* `Search.asksAtMost_boundedBrent`: how often a search evaluates its function.
-/

namespace Optimum

variable {α : Type} [Scalar α]

namespace Bracket

/-- How a new point cuts the interval: the ends and the best point after it is taken in. -/
inductive Cut (b : Bracket α) (new : Sample α) : (lo hi : α) → (best : Sample α) → Prop where
  /-- A point no worse than the best, and not below it. -/
  | betterAbove : new.f ≤ b.best.f → b.best.x ≤ new.x → Cut b new b.best.x b.hi new
  /-- A point no worse than the best, and below it. -/
  | betterBelow : new.f ≤ b.best.f → ¬ b.best.x ≤ new.x → Cut b new b.lo b.best.x new
  /-- A point worse than the best, and below it. -/
  | worseBelow : ¬ new.f ≤ b.best.f → new.x < b.best.x → Cut b new new.x b.hi b.best
  /-- A point worse than the best, and not below it. -/
  | worseAbove : ¬ new.f ≤ b.best.f → ¬ new.x < b.best.x → Cut b new b.lo new.x b.best

/-- The best point after a cut is the new one or the old one. -/
theorem Cut.best_eq {b : Bracket α} {new best : Sample α} {lo hi : α} (h : b.Cut new lo hi best) :
    best = new ∨ best = b.best := by
  cases h with
  | betterAbove _ _ => exact .inl rfl
  | betterBelow _ _ => exact .inl rfl
  | worseBelow _ _ => exact .inr rfl
  | worseAbove _ _ => exact .inr rfl

/-- **A point that is taken in cuts the interval.** -/
theorem cut_absorb (b : Bracket α) (new : Sample α) :
    b.Cut new (b.absorb new).lo (b.absorb new).hi (b.absorb new).best := by
  unfold absorb
  split
  next hle =>
    by_cases hx : b.best.x ≤ new.x
    · simpa only [improve, hx, if_true] using Cut.betterAbove hle hx
    · simpa only [improve, hx, if_false] using Cut.betterBelow hle hx
  next hgt =>
    unfold retain
    by_cases hx : new.x < b.best.x
    · simp only [hx, if_true]
      split_ifs <;> exact .worseBelow hgt hx
    · simp only [hx, if_false]
      split_ifs <;> exact .worseAbove hgt hx

/-- A pass cuts the interval with the point that it proposes. -/
theorem cut_advance (b : Bracket α) (tol f : α) :
    b.Cut ⟨b.proposal tol, f⟩ (b.advance tol f).lo (b.advance tol f).hi (b.advance tol f).best :=
  b.cut_absorb ⟨b.proposal tol, f⟩

end Bracket

namespace Search

/-- The points of a search with their values. -/
def samples {α : Type} (u : Dialogue.Record (fun _ : α => α)) : List (Sample α) :=
  u.map fun e => ⟨e.question, e.answer⟩

/-- From a bracket, with at most `left` evaluations, a search makes passes to another one. -/
inductive Refines (tol : α) :
    (left : Nat) → Bracket α → Dialogue.Record (fun _ : α => α) → Bracket α → Prop where
  /-- The budget is spent, or the bracket is resolved. -/
  | halts {left : Nat} {b : Bracket α} : left = 0 ∨ b.IsResolved tol → Refines tol left b [] b
  /-- A pass is made, and others may follow. -/
  | pass {left : Nat} {b b' : Bracket α} {f : α} {u : Dialogue.Record (fun _ : α => α)} :
      ¬ b.IsResolved tol → Refines tol left (b.advance tol f) u b' →
      Refines tol (left + 1) b (⟨b.proposal tol, f⟩ :: u) b'

variable {tol : α} {left spent : Nat} {b b' : Bracket α} {u : Dialogue.Record (fun _ : α => α)}
  {found : Found α}

/-- **A path of the search is a sequence of passes.** -/
theorem refines_of_ends (h : (refine tol left spent b).Ends u found) :
    ∃ b', Refines tol left b u b' ∧ found = ⟨b'.best, spent + u.length, ¬ b'.IsResolved tol⟩ := by
  induction left generalizing spent b u with
  | zero =>
    obtain ⟨rfl, rfl⟩ := Dialogue.ends_done_iff.mp h
    exact ⟨b, .halts (.inl rfl), rfl⟩
  | succ left ih =>
    rw [refine] at h
    split at h
    next hres =>
      obtain ⟨rfl, rfl⟩ := Dialogue.ends_done_iff.mp h
      exact ⟨b, .halts (.inr hres), by simp [hres]⟩
    next hres =>
      obtain ⟨f, u, rfl, h'⟩ := Dialogue.ends_ask_iff.mp h
      obtain ⟨b', hrefines, rfl⟩ := ih h'
      exact ⟨b', .pass hres hrefines, by rw [List.length_cons, Nat.add_assoc, Nat.add_comm 1]⟩

/-- A search that ends before its bracket is resolved has spent its budget. -/
theorem Refines.length_eq (h : Refines tol left b u b') (hres : ¬ b'.IsResolved tol) :
    u.length = left := by
  induction h with
  | halts hleft => exact (hleft.resolve_right hres).symm
  | pass _ _ ih => exact congrArg (· + 1) (ih hres)

/-- What every pass preserves holds at the end, if it holds at the beginning. -/
theorem Refines.preserves {P : Bracket α → Prop} (h : Refines tol left b u b')
    (step : ∀ b f, ⟨b.proposal tol, f⟩ ∈ samples u → ¬ b.IsResolved tol → P b → P (b.advance tol f))
    (hb : P b) : P b' := by
  induction h with
  | halts _ => exact hb
  | pass hres _ ih =>
    exact ih (fun b f hf => step b f (List.mem_cons_of_mem _ hf)) (step _ _ List.mem_cons_self hres hb)

/-- The points that come in decide which bracket the passes lead to. -/
theorem Refines.unique {b₁ b₂ : Bracket α} (h₁ : Refines tol left b u b₁)
    (h₂ : Refines tol left b u b₂) : b₁ = b₂ := by
  induction h₁ with
  | halts _ =>
    cases h₂ with
    | halts _ => rfl
  | pass _ _ ih =>
    cases h₂ with
    | pass _ h₂ => exact ih h₂

/-- The best point at the end is the one at the beginning, or one of those that came in. -/
theorem Refines.best_mem (h : Refines tol left b u b') : b'.best ∈ b.best :: samples u := by
  induction h with
  | halts _ => exact List.mem_cons_self
  | @pass _ b _ f _ _ _ ih =>
    rcases List.mem_cons.mp ih with hbest | hmem
    · rcases (b.cut_advance tol f).best_eq with heq | heq <;> rw [hbest, heq]
      · exact List.mem_cons_of_mem _ List.mem_cons_self
      · exact List.mem_cons_self
    · exact List.mem_cons_of_mem _ (List.mem_cons_of_mem _ hmem)

/-- A search begins with one evaluation, and then makes passes. -/
theorem refines_of_ends_boundedBrent {lo hi : α} {maxFev : Nat}
    (h : (boundedBrent lo hi tol maxFev).Ends u found) :
    ∃ f v b', u = ⟨Bracket.start lo hi, f⟩ :: v ∧
      Refines tol (maxFev - 1) (.init lo hi ⟨Bracket.start lo hi, f⟩) v b' ∧
      found = ⟨b'.best, u.length, ¬ b'.IsResolved tol⟩ := by
  obtain ⟨f, v, rfl, h'⟩ := Dialogue.ends_ask_iff.mp h
  obtain ⟨b', hrefines, rfl⟩ := refines_of_ends h'
  exact ⟨f, v, b', rfl, hrefines, by simp [Nat.add_comm]⟩

/-- The result of a search is a point that was evaluated, with its value. -/
theorem best_mem_of_ends_boundedBrent {lo hi : α} {maxFev : Nat}
    (h : (boundedBrent lo hi tol maxFev).Ends u found) : found.best ∈ samples u := by
  obtain ⟨f, v, b', rfl, hrefines, rfl⟩ := refines_of_ends_boundedBrent h
  exact hrefines.best_mem

/-! ### Between two passes -/

/-- The loop of a search, after some of its passes: what is left of it is the loop from the bracket
that they lead to. -/
theorem refines_of_reaches {d : Search α (Found α)} (h : (refine tol left spent b).Reaches u d) :
    ∃ b', Refines tol u.length b u b' ∧
      d = refine tol (left - u.length) (spent + u.length) b' := by
  generalize hd : refine tol left spent b = d₀ at h
  induction h generalizing left spent b with
  | refl d => exact ⟨b, .halts (.inl rfl), hd.symm⟩
  | ask h ih =>
    cases left with
    | zero => cases hd
    | succ left =>
      rw [refine] at hd
      split at hd
      next => cases hd
      next hres =>
        cases hd
        obtain ⟨b', hu, rfl⟩ := ih rfl
        refine ⟨b', .pass hres hu, ?_⟩
        rw [List.length_cons, Nat.add_sub_add_right, Nat.add_right_comm, Nat.add_assoc]

/-- The loop of a search gets there, if it may make so many evaluations. -/
theorem Refines.reaches {n : Nat} (h : Refines tol n b u b') (hn : n = u.length) (hleft : n ≤ left) :
    (refine tol left spent b).Reaches u (refine tol (left - u.length) (spent + u.length) b') := by
  induction h generalizing left spent with
  | halts _ => exact .refl _
  | @pass n b _ f u hres _ ih =>
    obtain ⟨left, rfl⟩ := Nat.exists_eq_add_of_le' (Nat.le_of_add_left_le hleft)
    have hu : (refine tol left (spent + 1) (b.advance tol f)).Reaches u _ :=
      ih (Nat.succ.inj hn) (Nat.le_of_succ_le_succ hleft)
    rw [refine, if_neg hres, List.length_cons, Nat.add_sub_add_right, ← Nat.add_assoc,
      Nat.add_right_comm]
    exact .ask hu

/-- The evaluations `done` bring a search to the bracket `b`: it begins with the first of them, and
makes a pass with each of the others. -/
def StandsAt (lo hi tol : α) (done : Dialogue.Record (fun _ : α => α)) (b : Bracket α) : Prop :=
  ∃ f u, done = ⟨Bracket.start lo hi, f⟩ :: u ∧
    Refines tol u.length (.init lo hi ⟨Bracket.start lo hi, f⟩) u b

theorem StandsAt.unique {lo hi : α} {b₁ b₂ : Bracket α} (h₁ : StandsAt lo hi tol u b₁)
    (h₂ : StandsAt lo hi tol u b₂) : b₁ = b₂ := by
  obtain ⟨f, v, rfl, h₁⟩ := h₁
  obtain ⟨_, _, heq, h₂⟩ := h₂
  cases heq
  exact h₁.unique h₂

/-- **After any of its evaluations a search stands at some bracket**, and goes on from there. -/
theorem standsAt_of_reaches {lo hi : α} {maxFev : Nat} {d : Search α (Found α)}
    (h : (boundedBrent lo hi tol maxFev).Reaches u d) (hu : u ≠ []) :
    ∃ b, StandsAt lo hi tol u b ∧ d = refine tol (maxFev - u.length) u.length b := by
  cases h with
  | refl => exact absurd rfl hu
  | @ask _ _ f u _ h =>
    obtain ⟨b, hrefines, rfl⟩ := refines_of_reaches h
    refine ⟨b, ⟨f, u, rfl, hrefines⟩, ?_⟩
    rw [List.length_cons, Nat.sub_sub, Nat.add_comm]

/-- It comes to each bracket at which it can stand, if its budget allows so many evaluations. -/
theorem StandsAt.reaches {lo hi : α} {maxFev : Nat} (h : StandsAt lo hi tol u b)
    (hmax : u.length ≤ max 1 maxFev) :
    (boundedBrent lo hi tol maxFev).Reaches u (refine tol (maxFev - u.length) u.length b) := by
  obtain ⟨f, u, rfl, hrefines⟩ := h
  rw [List.length_cons] at hmax
  have hrest : (refine tol (maxFev - 1) 1 _).Reaches u _ := hrefines.reaches rfl (by omega)
  rw [List.length_cons, Nat.add_comm u.length, ← Nat.sub_sub]
  exact .ask hrest

/-! ### Numbers of evaluations -/

theorem asksAtMost_refine (tol : α) (left spent : Nat) (b : Bracket α) :
    (refine tol left spent b).AsksAtMost left := by
  induction left generalizing spent b with
  | zero => trivial
  | succ left ih =>
    rw [refine]
    split
    · trivial
    · exact fun f => ih _ _

/-- A search keeps to its budget, which its first evaluation is part of if it allows one. -/
theorem asksAtMost_boundedBrent (lo hi tol : α) (maxFev : Nat) :
    (boundedBrent lo hi tol maxFev).AsksAtMost (max 1 maxFev) := by
  rw [show max 1 maxFev = maxFev - 1 + 1 by omega]
  exact fun f => asksAtMost_refine tol (maxFev - 1) 1 _

end Search

end Optimum

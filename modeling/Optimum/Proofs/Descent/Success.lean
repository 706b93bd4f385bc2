import Optimum.Proofs.Descent.Methods
import Optimum.Proofs.Difference
import Optimum.Proofs.Scalar.Exact

/-!
# Descents that cannot fail

In exact arithmetic every value is finite. So a run with usable options, from a point that has a
coordinate, gives a result, if gradients are estimated by difference quotients and the update rule
refuses an update only for want of curvature. The rule may give changes of any shape.
-/

namespace Optimum

open Scalar

variable {n : ℕ} {opt : Options ℝ} {t u : Transcript ℝ}

/-- Estimates are difference quotients, and the update rule fails only for want of curvature. -/
structure Transcript.Harmless (t : Transcript ℝ) : Prop where
  /-- The estimates. -/
  gradient : ∀ x h plan, ⟨.gradient x h, plan⟩ ∈ t → plan = .forward x h ∨ plan = .central x h
  /-- The refusals. -/
  update : ∀ b dx dg e, ⟨.update b dx dg, .error e⟩ ∈ t →
    ∃ curvature, e = .illConditionedUpdate curvature

namespace Transcript.Harmless

theorem mono (ht : t.Harmless) (hu : ∀ x ∈ u, x ∈ t) : u.Harmless :=
  ⟨fun x h plan hx => ht.gradient x h plan (hu _ hx),
    fun b dx dg e hx => ht.update b dx dg e (hu _ hx)⟩

theorem right (ht : (t ++ u).Harmless) : u.Harmless := ht.mono fun _ => List.mem_append_right _

/-- An estimate has an element for each coordinate, and these are finite. -/
theorem ends_finiteGradient (ht : t.Harmless) {x : Vec ℝ} {h : ℝ}
    {r : Except (Failure ℝ) (Vec ℝ)} (hend : Run.Ends (Run.finiteGradient x h) t r) :
    ∃ g, r = .ok g := by
  obtain ⟨plan, w, g, hw, rfl, rfl⟩ := Run.ends_finiteGradient_iff.mp hend
  have hlen : g.length = x.length := by
    rcases ht.gradient x h plan List.mem_cons_self with rfl | rfl
    · exact Plan.length_of_ends_forward hw
    · exact Plan.length_of_ends_central hw
  exact ⟨g, Run.checkGradient_eq_ok_iff.mpr ⟨hlen, allFinite_real g, rfl⟩⟩

theorem ends_iterate (ht : t.Harmless) {x : Vec ℝ} {h : ℝ} {r : Except (Failure ℝ) (Iterate ℝ)}
    (hend : Run.Ends (Run.iterate x h) t r) : ∃ it, r = .ok it := by
  cases r with
  | ok it => exact ⟨it, rfl⟩
  | error e =>
    rcases Run.ends_iterate_error_iff.mp hend with ⟨v, hv, -, -⟩ | ⟨v, t', -, hg, rfl⟩
    · cases hv
    · obtain ⟨g, hg⟩ := (ht.mono fun _ => List.mem_cons_of_mem _).ends_finiteGradient hg
      cases hg

end Transcript.Harmless

/-- A line search meets finite values only. -/
theorem Run.exists_ok_of_ends_lineSearch {x s : Vec ℝ} {f₀ : ℝ} {r : Except (Failure ℝ) (Step ℝ)}
    (hend : Run.Ends (Run.lineSearch opt x s f₀) t r) : ∃ step, r = .ok step := by
  cases r with
  | ok step => exact ⟨step, rfl⟩
  | error e =>
    rcases Run.ends_lineSearch_error_iff.mp hend with hsearch | ⟨u, found, v, -, -, hv, -, -⟩
    · obtain ⟨u, a, next, v, -, -, hv, -, -⟩ := Run.ends_search_error_iff.mp hsearch
      cases hv
    · cases hv

namespace Transcript.Harmless

variable {method : Method} {σ : Stage ℝ (method.Memory ℝ)}

/-- **An iteration is complete.** -/
theorem iterates (ht : t.Harmless) {r : Except (Failure ℝ) (Iteration ℝ (method.Memory ℝ))}
    (hend : Run.Iterates (method.strategy n) opt σ t r) : ∃ i, r = .ok i := by
  cases r with
  | ok i => exact ⟨i, rfl⟩
  | error e =>
    rcases Run.ends_iteration_error_iff.mp hend with h₁ | ⟨t₁, t₂, step, -, h₂, rfl⟩
    · obtain ⟨step, hstep⟩ := Run.exists_ok_of_ends_lineSearch h₁
      cases hstep
    · obtain ⟨it, hit⟩ := ht.right.ends_iterate h₂
      cases hit

/-- And the method learns from it. -/
theorem ends_absorb (ht : t.Harmless) {prev next : Iterate ℝ} {memory : method.Memory ℝ}
    {r : Except (Failure ℝ) (method.Memory ℝ)}
    (hend : Run.Ends ((method.strategy n).absorb prev next memory) t r) : ∃ m, r = .ok m := by
  cases method with
  | steepestDescent => exact ⟨_, (Run.ends_pure_iff.mp hend).2⟩
  | conjugateGradient => exact ⟨_, (Run.ends_pure_iff.mp hend).2⟩
  | quasiNewton =>
    obtain ⟨answer, rfl, rfl⟩ := Strategy.ends_absorb_quasiNewton_iff.mp hend
    cases answer with
    | ok db => exact ⟨_, rfl⟩
    | error e =>
      obtain ⟨curvature, rfl⟩ := ht.update _ _ _ _ List.mem_cons_self
      exact ⟨_, rfl⟩

theorem descends (ht : t.Harmless) {left : ℕ} {stages : List (Stage ℝ (method.Memory ℝ))}
    {r : Except (Failure ℝ) (Solution ℝ)}
    (h : Run.Descends (method.strategy n) opt left σ t stages r) : ∃ sol, r = .ok sol := by
  induction h with
  | fails h₁ =>
    obtain ⟨i, hi⟩ := ht.iterates h₁
    cases hi
  | stops _ _ => exact ⟨_, rfl⟩
  | refuses _ _ h₂ =>
    obtain ⟨m, hm⟩ := ht.right.ends_absorb h₂
    cases hm
  | goesOn _ _ _ _ ih => exact ih ht.right

end Transcript.Harmless

/-- **A run in exact arithmetic gives a result.** -/
theorem Method.succeeds_of_ends {method : Method} {x₀ : Vec ℝ}
    {r : Except (Failure ℝ) (Solution ℝ)} (hend : Run.Ends (method.solve opt x₀) t r)
    (hopt : opt.fault? = none) (hx₀ : x₀ ≠ []) (ht : t.Harmless) : ∃ sol, r = .ok sol := by
  rw [Method.solve_eq] at hend
  obtain ⟨stages, h⟩ := Run.ends_minimize_iff.mp hend
  cases h with
  | unusable hfault => cases hopt.symm.trans hfault
  | empty _ hx => exact absurd hx hx₀
  | unstarted _ _ h₁ =>
    obtain ⟨it, hit⟩ := ht.ends_iterate h₁
    cases hit
  | descends _ _ _ h₂ => exact ht.right.descends h₂

end Optimum

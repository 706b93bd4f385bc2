import Optimum.Proofs.Descent.Methods
import Optimum.Proofs.InverseHessian.Rules

/-!
# How descents fail

A descent fails because its options or its starting point cannot be used, because a value or an
estimate that an iteration asks for is not as it should be, or because its update rule fails with
something else than a refusal. The rule is only asked about sizes that match, so that a rule with
failures of its own for sizes that do not need not come into this.

## What is proved

* `Run.ofIteration_of_ends_iteration`: what an iteration can fail with; by induction on the iterations,
  `Run.Descends.failure`, and for whole runs `Method.failure_of_ends`.
* `Stage.Shaped.matching`: what the rule is asked after an iteration; with the shapes of all stages,
  `Method.matching_of_ends`.
-/

namespace Optimum

open Scalar

/-- The failures of an iteration. -/
inductive Failure.OfIteration {α : Type} : Failure α → Prop where
  /-- The objective at the new iterate. -/
  | objective : OfIteration (.nonFiniteValue .objective)
  /-- The objective at a point of the line search. -/
  | searchDirection : OfIteration (.nonFiniteValue .searchDirection)
  /-- The gradient estimate. -/
  | gradient : OfIteration (.nonFiniteValue .gradient)
  /-- The number of its elements. -/
  | length {n m : Nat} : n ≠ m → OfIteration (.dimensionMismatch .gradient n m)

variable {α : Type} [Scalar α]

/-- The update rule fails with `e`. -/
def Transcript.RuleFails (t : Transcript α) (e : Failure α) : Prop :=
  ∃ b dx dg, ⟨.update b dx dg, .error e⟩ ∈ t

omit [Scalar α] in
theorem Transcript.RuleFails.mono {t u : Transcript α} {e : Failure α} (h : t.RuleFails e)
    (hsub : t ⊆ u) : u.RuleFails e := by
  obtain ⟨b, dx, dg, hmem⟩ := h
  exact ⟨b, dx, dg, hsub hmem⟩

/-! ### Iterations -/

namespace Run

variable {x s : Vec α} {f₀ h : α} {opt : Options α} {t : Transcript α} {e : Failure α}

theorem ofIteration_of_ends_finiteGradient (hend : Ends (finiteGradient x h) t (.error e)) :
    e.OfIteration := by
  obtain ⟨plan, u, g, -, -, hcheck⟩ := ends_finiteGradient_iff.mp hend
  unfold checkGradient at hcheck
  split_ifs at hcheck with hlength hfinite
  · cases hcheck
    exact .length (Ne.symm hlength)
  · cases hcheck
    exact .gradient

theorem ofIteration_of_ends_iterate (hend : Ends (iterate x h) t (.error e)) : e.OfIteration := by
  rcases ends_iterate_error_iff.mp hend with ⟨v, -, -, rfl⟩ | ⟨v, t', -, hg, -⟩
  · exact .objective
  · exact ofIteration_of_ends_finiteGradient hg

theorem ofIteration_of_ends_lineSearch (hend : Ends (lineSearch opt x s f₀) t (.error e)) :
    e.OfIteration := by
  rcases ends_lineSearch_error_iff.mp hend with hsearch | ⟨u, found, v, -, -, -, rfl, -⟩
  · obtain ⟨u, a, next, v, -, -, -, rfl, -⟩ := ends_search_error_iff.mp hsearch
    exact .searchDirection
  · exact .searchDirection

theorem ofIteration_of_ends_iteration {S : Type} {strategy : Strategy α S} {k : Nat}
    {it : Iterate α} {memory : S} (hend : Ends (iteration strategy opt k it memory) t (.error e)) :
    e.OfIteration := by
  rcases ends_iteration_error_iff.mp hend with hsearch | ⟨t₁, t₂, step, -, hit, -⟩
  · exact ofIteration_of_ends_lineSearch hsearch
  · exact ofIteration_of_ends_iterate hit

end Run

/-! ### Whole runs -/

section Failures

variable {method : Method} {n : Nat} {opt : Options α} {t : Transcript α} {e : Failure α}

/-- A method that cannot learn from a step has a rule that fails. -/
theorem Method.ruleFails_of_ends_absorb {prev next : Iterate α} {memory : method.Memory α}
    (hend : Run.Ends ((method.strategy n).absorb prev next memory) t (.error e)) :
    t.RuleFails e := by
  cases method with
  | steepestDescent => cases (Run.ends_pure_iff.mp hend).2
  | conjugateGradient => cases (Run.ends_pure_iff.mp hend).2
  | quasiNewton =>
    obtain ⟨answer, rfl, hlearned⟩ := Strategy.ends_absorb_quasiNewton_iff.mp hend
    cases Strategy.learned_eq_error hlearned.symm
    exact ⟨_, _, _, List.mem_cons_self⟩

/-- A descent fails as an iteration does, or as its update rule does. -/
theorem Run.Descends.failure {left : Nat} {σ : Stage α (method.Memory α)}
    {stages : List (Stage α (method.Memory α))} {r : Except (Failure α) (Solution α)}
    (h : Run.Descends (method.strategy n) opt left σ t stages r) (hr : r = .error e) :
    e.OfIteration ∨ t.RuleFails e := by
  induction h with
  | fails h₁ =>
    cases hr
    exact .inl (Run.ofIteration_of_ends_iteration h₁)
  | stops _ _ => cases hr
  | refuses _ _ h₂ =>
    cases hr
    exact .inr ((Method.ruleFails_of_ends_absorb h₂).mono (List.subset_append_right _ _))
  | goesOn _ _ _ _ ih => exact (ih hr).imp_right (·.mono (List.subset_append_right _ _))

/-- **How a run of a method fails.** -/
theorem Method.failure_of_ends {x₀ : Vec α} (hend : Run.Ends (method.solve opt x₀) t (.error e)) :
    (∃ fault, e = .invalidOptions fault) ∨ e = .emptyDesignVector ∨ e.OfIteration ∨
      t.RuleFails e := by
  rw [solve_eq] at hend
  obtain ⟨stages, h⟩ := Run.ends_minimize_iff.mp hend
  generalize hr : (Except.error e : Except (Failure α) (Solution α)) = r at h
  cases h with
  | unusable _ =>
    cases hr
    exact .inl ⟨_, rfl⟩
  | empty _ _ =>
    cases hr
    exact .inr (.inl rfl)
  | unstarted _ _ h₁ =>
    cases hr
    exact .inr (.inr (.inl (Run.ofIteration_of_ends_iterate h₁)))
  | descends _ _ _ h₂ =>
    exact .inr (.inr ((h₂.failure hr.symm).imp_right (·.mono (List.subset_append_right _ _))))

end Failures

/-! ### What the update rule is asked -/

/-- The update rule is only asked about sizes that match. -/
def Transcript.AsksMatching (t : Transcript α) : Prop :=
  ∀ b dx dg answer, ⟨.update b dx dg, answer⟩ ∈ t → UpdateRule.Matching b dx dg

section Questions

variable {n : Nat} {opt : Options α} {t u : Transcript α}

/-- **What the update rule is asked after an iteration.** -/
theorem Stage.Shaped.matching {σ : Stage α (Method.quasiNewton.Memory α)}
    {i : Iteration α (Method.quasiNewton.Memory α)} (hσ : σ.Shaped n)
    (h : Run.Iterates (Method.quasiNewton.strategy n) opt σ t (.ok i)) :
    UpdateRule.Matching i.memory (i.next.x.sub σ.it.x) (i.next.g.sub σ.it.g) := by
  have hnext := hσ.iteration h
  have hdx : (i.next.x.sub σ.it.x).length = n := by
    rw [Vec.length_sub, hnext.point, hσ.point, Nat.min_self]
  have hdg : (i.next.g.sub σ.it.g).length = n := by
    rw [Vec.length_sub, hnext.gradient, hσ.gradient, Nat.min_self]
  exact ⟨hdg.trans hdx.symm, hdx ▸ hnext.memory⟩

/-- **A run of a method asks its update rule about matching sizes only**, as long as the rule keeps the
shape. -/
theorem Method.matching_of_ends {method : Method} {x₀ : Vec α} {r : Except (Failure α) (Solution α)}
    (hend : Run.Ends (method.solve opt x₀) t r) (hshape : t.KeepsShape) : t.AsksMatching := by
  intro b dx dg answer hx
  obtain rfl := eq_quasiNewton_of_update hend hx
  rw [solve_eq] at hend
  obtain ⟨stages, h⟩ := Run.ends_minimize_iff.mp hend
  obtain ⟨τ, hτ, v, i, u, m, hi, hu, hmem⟩ := h.exists_stage_of_update hx
  obtain ⟨answer', rfl, -⟩ := Strategy.ends_absorb_quasiNewton_iff.mp hu
  rcases List.mem_cons.mp hmem with heq | hmem
  · cases heq
    exact (h.shaped hshape τ hτ).matching hi
  · exact absurd rfl ((Transcript.evaluates_written _ _ hmem).2 b dx dg)

end Questions

end Optimum

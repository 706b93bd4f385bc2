import Optimum.Proofs.Descent.Failures
import Optimum.Proofs.InverseHessian.PositiveDefinite

/-!
# Positive definiteness of quasi-Newton runs

A quasi-Newton run with one of the two update rules keeps its approximation of the inverse Hessian
symmetric positive definite, in exact arithmetic and from stage to stage. So every direction is one
of descent, and a pair that shows curvature is never refused.

## What is proved

* `Stage.Definite` is the invariant of the loop, and `Stage.Definite.step` the step lemma.
* `Run.positiveDefinite_of_recordOn`: the invariant holds at every stage of every run, and of the
  rules used alone.
-/

namespace Optimum

open Scalar

variable {n : Nat} {rule : UpdateRule ℝ} {opt : Options ℝ}
  {σ : Stage ℝ (Method.quasiNewton.Memory ℝ)} {t u : Transcript ℝ}
  {i : Iteration ℝ (Method.quasiNewton.Memory ℝ)}

/-- What is known when a quasi-Newton iteration begins. -/
structure Stage.Definite (n : Nat) (σ : Stage ℝ (Method.quasiNewton.Memory ℝ)) : Prop
    extends σ.Shaped n where
  /-- The approximation is positive definite. -/
  definite : Mat.PositiveDefinite n σ.memory

namespace Stage.Definite

/-- What the update rule is asked after an iteration. -/
theorem question (hσ : σ.Definite n) (h : Run.Iterates Strategy.quasiNewton opt σ t (.ok i))
    {r : Except (Failure ℝ) (Mat ℝ)}
    (hu : Run.Ends (Strategy.quasiNewton.absorb σ.it i.next i.memory) u r) :
    ∃ answer : Except (Failure ℝ) (Mat ℝ), UpdateRule.Matching σ.memory (i.next.x.sub σ.it.x)
        (i.next.g.sub σ.it.g) ∧ r = Strategy.learned σ.memory answer ∧
      u = ⟨.update σ.memory (i.next.x.sub σ.it.x) (i.next.g.sub σ.it.g), answer⟩ ::
        Note.written (Strategy.refusal answer) := by
  have hsizes := hσ.toShaped.matching h
  obtain ⟨answer, rfl, hm⟩ := Strategy.ends_absorb_quasiNewton_iff.mp hu
  obtain ⟨t₁, t₂, step, next, -, -, rfl, -⟩ := Run.ends_iteration_ok_iff.mp h
  exact ⟨answer, hsizes, hm, rfl⟩

/-- **The approximation is positive definite again when the next iteration begins.** -/
theorem step (hσ : σ.Definite n) (hrule : rule = UpdateRule.bfgs ∨ rule = UpdateRule.dfp)
    (h : Run.Iterates Strategy.quasiNewton opt σ t (.ok i)) {m : Mat ℝ}
    (hu : Run.Ends (Strategy.quasiNewton.absorb σ.it i.next i.memory) u (.ok m))
    (hanswers : u.UpdateIs rule) : Stage.Definite n ⟨σ.k + 1, i.next, m⟩ := by
  have hnext := hσ.toShaped.iteration h
  obtain ⟨answer, -, hm, rfl⟩ := hσ.question h hu
  have hdefinite : m.PositiveDefinite n := by
    rcases Strategy.learned_eq_ok hm.symm with ⟨db, rfl, rfl⟩ | ⟨c, rfl, rfl⟩
    · exact hσ.definite.add hrule (hanswers _ _ _ _ List.mem_cons_self).symm
    · exact hσ.definite
  exact ⟨⟨hnext.point, hnext.gradient, hdefinite.isSquare⟩, hdefinite⟩

/-- A call of the update rule is for a positive definite approximation, and succeeds if the pair
shows curvature. -/
theorem call (hσ : σ.Definite n) (hrule : rule = UpdateRule.bfgs ∨ rule = UpdateRule.dfp)
    (h : Run.Iterates Strategy.quasiNewton opt σ t (.ok i)) {r : Except (Failure ℝ) (Mat ℝ)}
    (hu : Run.Ends (Strategy.quasiNewton.absorb σ.it i.next i.memory) u r)
    {b : Mat ℝ} {dx dg : Vec ℝ} (hx : ⟨.update b dx dg, rule b dx dg⟩ ∈ u) :
    b.PositiveDefinite n ∧ (UpdateRule.Curved dx dg → ∃ db, rule b dx dg = .ok db) := by
  obtain ⟨answer, hsizes, -, rfl⟩ := hσ.question h hu
  rcases List.mem_cons.mp hx with heq | hx
  · cases heq
    exact ⟨hσ.definite, hσ.definite.accepts hrule hsizes⟩
  · exact absurd rfl ((Transcript.evaluates_written _ _ hx).2 b dx dg)

end Stage.Definite

namespace Run

theorem Descends.definite {left : Nat} {stages : List (Stage ℝ (Mat ℝ))}
    {r : Except (Failure ℝ) (Solution ℝ)}
    (hrule : rule = UpdateRule.bfgs ∨ rule = UpdateRule.dfp)
    (h : Descends .quasiNewton opt left σ t stages r) (hσ : σ.Definite n)
    (hanswers : t.UpdateIs rule) : ∀ τ ∈ stages, Stage.Definite n τ := by
  refine h.forall_stages (P := fun x => ∀ b dx dg answer,
    x = ⟨.update b dx dg, answer⟩ → answer = rule b dx dg) ?_ hσ ?_
  · intro τ v i u m hτ hi hu hall
    exact hτ.step hrule hi hu fun b dx dg answer hx =>
      hall _ (List.mem_append_right _ hx) b dx dg answer rfl
  · rintro x hx b dx dg answer rfl
    exact hanswers b dx dg answer hx

variable {x₀ : Vec ℝ} {stages : List (Stage ℝ (Mat ℝ))} {r : Except (Failure ℝ) (Solution ℝ)}

theorem Minimizes.definite (hrule : rule = UpdateRule.bfgs ∨ rule = UpdateRule.dfp)
    (h : Minimizes .quasiNewton (.identity x₀.length) opt x₀ t stages r)
    (hanswers : t.UpdateIs rule) : ∀ τ ∈ stages, Stage.Definite x₀.length τ := by
  cases h with
  | unusable _ => exact nofun
  | empty _ _ => exact nofun
  | unstarted _ _ _ => exact nofun
  | descends _ _ h₁ h₂ =>
    have hstart : Stage.Definite x₀.length ⟨0, _, Mat.identity x₀.length⟩ :=
      ⟨Method.shaped_start h₁, Mat.positiveDefinite_identity _⟩
    exact h₂.definite hrule hstart fun b dx dg answer hx =>
      hanswers b dx dg answer (List.mem_append_right _ hx)

/-- **In every quasi-Newton run with one of the two update rules, the approximation of the inverse
Hessian is symmetric positive definite at every stage**, whatever the objective and the estimator of
gradients. So the direction is one of descent, unless the gradient estimate vanishes, and a pair
that shows curvature is never refused. The same holds of the rules used alone, after any pairs,
whichever are refused. -/
theorem positiveDefinite_of_recordOn {σ : Type} {problem : Callbacks (StateM σ) ℝ}
    (hrule : rule = UpdateRule.bfgs ∨ rule = UpdateRule.dfp) (hupdate : problem.UpdateIs rule)
    (opt : Options ℝ) (x₀ : Vec ℝ) (s : σ) :
    let out := (((quasiNewton opt x₀).recordOn problem).run s).1
    (∃ stages, Minimizes .quasiNewton (.identity x₀.length) opt x₀ out.2 stages out.1) ∧
    (∀ stages, Minimizes .quasiNewton (.identity x₀.length) opt x₀ out.2 stages out.1 →
      ∀ τ ∈ stages, τ.memory.PositiveDefinite x₀.length ∧ ((∃ v ∈ τ.it.g, v ≠ 0) →
        Vec.dot τ.it.g (Strategy.quasiNewton.direction τ.k τ.it τ.memory).1 < 0)) ∧
    (∀ b dx dg answer, ⟨.update b dx dg, answer⟩ ∈ out.2 → b.PositiveDefinite x₀.length ∧
      (UpdateRule.Curved dx dg → ∃ db, answer = .ok db)) ∧
    ∀ (n : Nat) (b : Mat ℝ) (pairs : List (Vec ℝ × Vec ℝ)), b.PositiveDefinite n →
      (pairs.foldl (UpdateRule.follow rule) b).PositiveDefinite n ∧
      ∀ dx dg, UpdateRule.Matching (pairs.foldl (UpdateRule.follow rule) b) dx dg →
        UpdateRule.Curved dx dg →
        ∃ db, rule (pairs.foldl (UpdateRule.follow rule) b) dx dg = .ok db := by
  intro out
  have hanswers : out.2.UpdateIs rule := hupdate.recordOn
  have hends : Ends (quasiNewton opt x₀) out.2 out.1 := ends_recordOn _ s
  obtain ⟨stages, hrun⟩ := ends_minimize_iff.mp hends
  refine ⟨⟨stages, hrun⟩, fun stages h τ hτ => ?_, fun b dx dg answer hx => ?_, ?_⟩
  · have hdefinite := h.definite hrule hanswers τ hτ
    exact ⟨hdefinite.definite, hdefinite.definite.dot_direction_neg hdefinite.gradient⟩
  · obtain ⟨τ, hτ, v, i, u, m, hi, hu, hmem⟩ := hrun.exists_stage_of_update hx
    rw [hanswers b dx dg answer hx] at hmem ⊢
    exact (hrun.definite hrule hanswers τ hτ).call hrule hi hu hmem
  · intro n b pairs hb
    exact ⟨hb.follow hrule pairs, fun dx dg => (hb.follow hrule pairs).accepts hrule⟩

/-- A run on a sum of squares with the Davidon-Fletcher-Powell rule, and a single update. -/
theorem positiveDefinite_of_recordOn_sumOfSquares :
    let problem : Callbacks (StateM Unit) ℝ := {
      objective := fun x => pure (Vec.dot x x)
      constraints := fun _ => pure ⟨[], []⟩
      gradient := fun x h => pure (.central x h)
      update := fun b dx dg => pure (UpdateRule.dfp b dx dg)
      progress := fun _ => pure ()
      note := fun _ => pure () }
    let out := (((quasiNewton .default [3, 4]).recordOn problem).run ()).1
    problem.UpdateIs UpdateRule.dfp ∧
    (∃ stages, Minimizes .quasiNewton (.identity 2) .default [3, 4] out.2 stages out.1 ∧
      ∀ τ ∈ stages, τ.memory.PositiveDefinite 2) ∧
    (UpdateRule.follow UpdateRule.dfp (.identity 2) ([3, 4], [6, 8])).PositiveDefinite 2 := by
  intro problem out
  have hupdate : problem.UpdateIs UpdateRule.dfp := fun _ _ _ _ => rfl
  obtain ⟨⟨stages, hrun⟩, hstages, -, hpairs⟩ :=
    positiveDefinite_of_recordOn (.inr rfl) hupdate .default [3, 4] ()
  refine ⟨hupdate, ⟨stages, hrun, fun τ hτ => (hstages stages hrun τ hτ).1⟩, ?_⟩
  exact (hpairs 2 (.identity 2) [([3, 4], [6, 8])] (Mat.positiveDefinite_identity 2)).1

end Run

end Optimum

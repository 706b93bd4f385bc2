import Optimum.Proofs.Descent.Course
import Optimum.Proofs.Descent.Success
import Optimum.Proofs.Lagrangian.Paths
import Optimum.Proofs.Lagrangian.Stateless

/-!
# Outer iterations that cannot fail

In exact arithmetic the augmented Lagrangian method gives a result from every starting point that
has a coordinate, if the constraints have the same numbers of residuals everywhere, gradients are
estimated by difference quotients, and the update rule gives changes of the right shape or refuses an
update for want of curvature.
-/

namespace Optimum

open Scalar

namespace Callbacks

/-- There are `ng` inequalities and `nh` equalities everywhere. -/
structure Sized {α : Type} (p : Callbacks Id α) (ng nh : ℕ) : Prop where
  /-- The inequalities. -/
  ineq : ∀ x, (p.constraints x).ineq.length = ng
  /-- The equalities. -/
  eq : ∀ x, (p.constraints x).eq.length = nh

/-- Estimates are difference quotients, and the update rule fails only for want of curvature. -/
structure Harmless (p : Callbacks Id ℝ) : Prop where
  /-- The estimates. -/
  gradient : ∀ x h, p.gradient x h = Plan.forward x h ∨ p.gradient x h = Plan.central x h
  /-- The changes. -/
  change : ∀ b dx dg db, p.update b dx dg = Except.ok db → Mat.SameShape db b
  /-- The refusals. -/
  refusal : ∀ b dx dg e, p.update b dx dg = Except.error e →
    ∃ curvature, e = .illConditionedUpdate curvature

variable {p : Callbacks Id ℝ} {t : Transcript ℝ}

theorem Harmless.transcript (h : p.Harmless) (ht : t.AnsweredBy p) : t.Harmless where
  gradient x step plan hx := by
    rw [show plan = p.gradient x step from ht _ hx]
    exact h.gradient x step
  update b dx dg e hx := h.refusal b dx dg e (ht _ hx).symm

theorem Harmless.keepsShape (h : p.Harmless) (ht : t.AnsweredBy p) : t.KeepsShape :=
  fun b dx dg db hx => h.change b dx dg db (ht _ hx).symm

end Callbacks

/-- An update leaves as many multipliers as there were. -/
theorem Multipliers.Fits.update {lam : Multipliers ℝ} {r r' : Residuals ℝ} (rho : ℝ)
    (h : lam.Fits r) (h' : lam.Fits r') : (lam.update rho r).Fits r' where
  ineq := by simp [Multipliers.update, h.ineq, h'.ineq]
  eq := by simp [Multipliers.update, h.eq, h'.eq]

/-- Settings that a run can use have inner settings that it can use. -/
theorem LagrangianOptions.fault?_inner {α : Type} [Scalar α] {lagOpt : LagrangianOptions α}
    (h : lagOpt.fault? = none) : lagOpt.inner.fault? = none := by
  unfold fault? at h
  split at h
  next => cases h
  next => exact h

namespace Run.Gives

variable {p : Callbacks Id ℝ} {ng nh : ℕ} {opt : Options ℝ} {lagOpt : LagrangianOptions ℝ}

theorem finiteObjective (x : Vec ℝ) : Gives p (Run.finiteObjective x) fun _ => True :=
  bind (query _) fun _ _ => pure trivial

theorem finiteGradient (hp : p.Harmless) (x : Vec ℝ) (h : ℝ) :
    Gives p (Run.finiteGradient x h) fun _ => True := by
  intro t r hend ht
  obtain ⟨g, hg⟩ := (hp.transcript ht).ends_finiteGradient hend
  exact ⟨g, hg, trivial⟩

/-- A quasi-Newton run, whose solution is in the dimension of its starting point. -/
theorem quasiNewton (hp : p.Harmless) (hopt : opt.fault? = none) {x₀ : Vec ℝ} (hx₀ : x₀ ≠ []) :
    Gives p (Run.quasiNewton opt x₀) fun sol => sol.x ≠ [] := by
  intro t r hend ht
  have hsolve : Ends (Method.quasiNewton.solve opt x₀) t r := hend
  obtain ⟨sol, rfl⟩ := Method.succeeds_of_ends hsolve hopt hx₀ (hp.transcript ht)
  refine ⟨sol, rfl, ?_⟩
  obtain ⟨-, hlength⟩ := Method.length_of_ends hsolve fun _ => (hp.keepsShape ht).keepsRows
  rw [← List.length_pos_iff, hlength sol rfl]
  exact List.length_pos_iff.mpr hx₀

/-! ### Outer iterations -/

/-- What is known when an outer iteration begins. -/
structure Ready (p : Callbacks Id ℝ) (it : OuterIterate ℝ) : Prop where
  /-- The point has a coordinate. -/
  point : it.x ≠ []
  /-- There is a multiplier for each residual. -/
  fits : ∀ x, it.multipliers.Fits (p.constraints x)

theorem checkedConstraints {lam : Multipliers ℝ} (x : Vec ℝ) (hlam : lam.Fits (p.constraints x)) :
    Gives p (Run.checkedConstraints x lam) fun r => r = p.constraints x := by
  refine bind (query (.constraints x)) fun r hr => ?_
  have hr : r = p.constraints x := hr
  subst hr
  rw [hlam.check]
  exact pure rfl

theorem outerIteration (hp : p.Harmless) (hlag : lagOpt.fault? = none) (opt : Options ℝ) (k : ℕ)
    {it : OuterIterate ℝ} (hit : Ready p it) :
    Gives p (Run.outerIteration opt lagOpt k it) fun i => Ready p i.next := by
  have hunder : ∀ l, (p.under l).Harmless := fun l => ⟨hp.gradient, hp.change, hp.refusal⟩
  have hinner := LagrangianOptions.fault?_inner hlag
  refine bind (under (quasiNewton (hunder _) hinner hit.point)) fun inner hx => ?_
  refine bind (checkedConstraints inner.x (hit.fits inner.x)) fun r hr => ?_
  refine bind (under (finiteGradient (hunder _) inner.x opt.fdStep)) fun g _ => ?_
  refine bind (finiteObjective inner.x) fun f _ => ?_
  refine bind (query _) fun _ _ => bind (query _) fun _ _ => pure ⟨hx, fun y => ?_⟩
  rw [hr]
  exact (hit.fits inner.x).update _ (hit.fits y)

/-- By induction on the iterations that are left. -/
theorem outerDescend (hp : p.Harmless) (hlag : lagOpt.fault? = none) (opt : Options ℝ)
    (left k : ℕ) {it : OuterIterate ℝ} (hit : Ready p it) :
    Gives p (Run.outerDescend opt lagOpt left k it) fun _ => True := by
  have hfinish : ∀ i flag, Gives p (Run.outerFinish i flag) fun _ => True := fun i flag =>
    bind (query _) fun _ _ => pure trivial
  induction left generalizing k it with
  | zero => exact bind (outerIteration hp hlag opt k hit) fun i _ => hfinish i _
  | succ left ih =>
    refine bind (outerIteration hp hlag opt k hit) fun i hi => ?_
    dsimp only
    split
    · exact hfinish i _
    · exact ih (k + 1) hi

/-- **The augmented Lagrangian method in exact arithmetic gives a result.** -/
theorem augmentedLagrangian (hp : p.Harmless) (hsized : p.Sized ng nh) (hopt : opt.fault? = none)
    (hlag : lagOpt.fault? = none) {x₀ : Vec ℝ} (hx₀ : x₀ ≠ []) :
    Gives p (Run.augmentedLagrangian opt lagOpt x₀) fun _ => True := by
  have hvalid : lagOpt.validate = .ok () := by
    rw [LagrangianOptions.validate, hlag]
  rw [augmentedLagrangian_of_valid (Options.validate_eq_ok_iff.mpr hopt), hvalid, if_neg hx₀]
  have hinitial : Gives p (Run.initialConstraints x₀) fun r => r = p.constraints x₀ := by
    refine bind (query (.constraints x₀)) fun r hr => ?_
    have hcheck : r.checkFinite = .ok () := by simp [Residuals.checkFinite]
    rw [hcheck]
    exact pure hr
  change Gives p (Run.initialConstraints x₀ >>= fun r => Run.finiteObjective x₀ >>= fun f =>
    Run.outerDescend opt lagOpt (opt.maxIt - 1) 0 ⟨x₀, f, .zeros r.ineq.length r.eq.length⟩) _
  refine bind hinitial fun r hr => bind (finiteObjective x₀) fun f _ => ?_
  refine outerDescend hp hlag opt _ 0 ⟨hx₀, fun y => ?_⟩
  have hr : r = p.constraints x₀ := hr
  refine ⟨?_, ?_⟩
  · simp [Multipliers.zeros, hr, hsized.ineq]
  · simp [Multipliers.zeros, hr, hsized.eq]

end Run.Gives

end Optimum

import Optimum.Proofs.Descent.Decrease
import Optimum.Proofs.Descent.Frames
import Optimum.Proofs.Lagrangian.Success

/-!
# The augmented Lagrangian method and frames of reference

The Lagrangian of a problem that is seen in another frame is the Lagrangian seen in that frame. So
the inner runs do not depend on the frame, nor do the residuals where they end, and the multipliers.

## What is proved

* `Frame.Shows.under`: the Lagrangian in both frames.
* `Run.Parallel.outerIteration` and `Run.Parallel.augmentedLagrangian`: the method in both frames.
* `Run.frameless_of_recordOn`: the recorded runs of all four solvers, on a problem and on the same
  problem with its coordinates in another order and from another origin.
-/

namespace Optimum

open Scalar

variable {n ng nh : ℕ} {F : Frame n} {p p' : Callbacks Id ℝ} {x y : Vec ℝ}

/-! ### Under a Lagrangian -/

/-- The Lagrangian in both frames. -/
theorem Frame.Shows.under (hp : F.Shows p p') (l : Lagrangian ℝ) :
    F.Shows (p.under l) (p'.under l) where
  objective x y h := by
    change l.valueAt p'.objective p'.constraints y = l.valueAt p.objective p.constraints x
    simp only [Lagrangian.valueAt, Lagrangian.value, hp.objective h, hp.constraints h]
  constraints := hp.constraints
  gradient := hp.gradient
  estimator := hp.estimator
  update := hp.update
  rule := hp.rule

/-- There is a multiplier for each residual. -/
theorem Callbacks.Sized.check (hp : p.Sized ng nh) {lam : Multipliers ℝ} (hlam : lam.Sized ng nh)
    (rho : ℝ) (x : Vec ℝ) : Lagrangian.check ⟨lam, rho⟩ (p.constraints x) = .ok () :=
  Lagrangian.check_of_fits ⟨(hp.ineq x).trans hlam.1.symm, (hp.eq x).trans hlam.2.symm⟩

/-- An outer iterate in both frames, with a multiplier for each residual. -/
structure Frame.MovesOuter (F : Frame n) (ng nh : ℕ) (it it' : OuterIterate ℝ) : Prop where
  /-- The point. -/
  point : F.Moves it.x it'.x
  /-- The objective there. -/
  value : it'.f = it.f
  /-- The multipliers. -/
  multipliers : it'.multipliers = it.multipliers
  /-- Their numbers. -/
  sized : it.multipliers.Sized ng nh

namespace Run.Parallel

variable {opt : Options ℝ} {lagOpt : LagrangianOptions ℝ} {it it' : OuterIterate ℝ}

theorem constraints (hp : F.Shows p p') (h : F.Moves x y) :
    Parallel p p' (fun r r' => r = p.constraints x ∧ r' = r) (Run.constraints x)
      (Run.constraints y) :=
  query (.constraints x) (.constraints y) nofun nofun ⟨rfl, hp.constraints h⟩

theorem initialConstraints (hp : F.Shows p p') (h : F.Moves x y) :
    Parallel p p' (fun r r' => r = p.constraints x ∧ r' = r) (Run.initialConstraints x)
      (Run.initialConstraints y) := by
  refine bind (constraints hp h) ?_
  rintro r _ ⟨hr, rfl⟩
  exact bind (check _) fun _ _ _ => pure ⟨hr, rfl⟩

theorem checkedConstraints (hp : F.Shows p p') (h : F.Moves x y) (lam : Multipliers ℝ) :
    Parallel p p' (fun r r' => r = p.constraints x ∧ r' = r) (Run.checkedConstraints x lam)
      (Run.checkedConstraints y lam) := by
  refine bind (constraints hp h) ?_
  rintro r _ ⟨hr, rfl⟩
  exact bind (check _) fun _ _ _ => pure ⟨hr, rfl⟩

/-! ### Outer iterations -/

/-- What an outer iteration did, in both frames. -/
structure DoesOuter (F : Frame n) (ng nh : ℕ) (i i' : OuterIteration ℝ) : Prop where
  /-- The next iterate. -/
  next : F.MovesOuter ng nh i.next i'.next
  /-- What the monitor was told. -/
  progress : i'.progress = i.progress

/-- **An outer iteration in both frames.** -/
theorem outerIteration (hp : F.Shows p p') (hsized : p.Sized ng nh) (hsized' : p'.Sized ng nh)
    (k : ℕ) (hit : F.MovesOuter ng nh it it') :
    Parallel p p' (DoesOuter F ng nh) (Run.outerIteration opt lagOpt k it)
      (Run.outerIteration opt lagOpt k it') := by
  rw [Run.outerIteration, Run.outerIteration, Run.innerRun, Run.innerRun, hit.multipliers]
  have hinner : Parallel p p' F.MovesSolution _ _ :=
    under (hsized.check hit.sized lagOpt.rho) (hsized'.check hit.sized lagOpt.rho)
      (Method.quasiNewton.parallel_solve (hp.under _) lagOpt.inner hit.point)
  refine bind hinner fun inner inner' hinner => ?_
  refine bind (checkedConstraints hp hinner.point it.multipliers) ?_
  rintro r _ ⟨rfl, rfl⟩
  have hlam : (it.multipliers.update lagOpt.rho (p.constraints inner.x)).Sized ng nh :=
    hit.sized.update lagOpt.rho (hsized.ineq _) (hsized.eq _)
  refine bind (under (hsized.check hlam lagOpt.rho) (hsized'.check hlam lagOpt.rho)
    (finiteGradient (hp.under _) hinner.point opt.fdStep)) fun g g' hg => ?_
  refine bind (finiteObjective hp hinner.point) ?_
  rintro f _ rfl
  simp only [hg.norm, hinner.point.distance hit.point, hinner.exitFlag, hinner.iterations]
  exact bind (note _) fun _ _ _ => bind (progress _) fun _ _ _ =>
    pure ⟨⟨hinner.point, rfl, rfl, hlam⟩, rfl⟩

/-- **The outer loop in both frames.** -/
theorem related_outerLoop (hp : F.Shows p p') (hsized : p.Sized ng nh) (hsized' : p'.Sized ng nh) :
    (outerLoop opt lagOpt).Related (parallel p p') (outerLoop opt lagOpt) (F.MovesOuter ng nh)
      (fun _ _ => DoesOuter F ng nh)
      (fun q q' => F.MovesSolution q.1 q'.1 ∧ q'.2 = q.2) where
  iteration k it it' hit := outerIteration hp hsized hsized' k hit
  met? opt it it' i i' hit hi := by
    simp only [Loop.met?, outerLoop, hi.progress, hi.next.value, hit.value]
  carry _ _ _ _ _ hi := pure hi.next
  finish it it' i i' flag hi := by
    simp only [Loop.finish, outerLoop, hi.progress, hi.next.value]
    exact bind (note _) fun _ _ _ => pure ⟨⟨hi.next.point, rfl, rfl, rfl⟩, hi.next.multipliers⟩

/-- **The augmented Lagrangian method in both frames.** -/
theorem augmentedLagrangian (hp : F.Shows p p') (hsized : p.Sized ng nh)
    (hsized' : p'.Sized ng nh) (opt : Options ℝ) (lagOpt : LagrangianOptions ℝ) (h : F.Moves x y) :
    Parallel p p' (fun q q' => F.MovesSolution q.1 q'.1 ∧ q'.2 = q.2)
      (Run.augmentedLagrangian opt lagOpt x) (Run.augmentedLagrangian opt lagOpt y) := by
  refine bind (check _) fun _ _ _ => bind (check _) fun _ _ _ => ?_
  rw [h.isEmpty_eq]
  split
  · exact throw _
  · refine bind (initialConstraints hp h) ?_
    rintro r _ ⟨rfl, rfl⟩
    refine bind (finiteObjective hp h) ?_
    rintro f _ rfl
    rw [outerDescend_eq_run, outerDescend_eq_run]
    refine (related_outerLoop hp hsized hsized').run opt _ 0 ⟨h, rfl, rfl, ?_⟩
    simp [Multipliers.Sized, Multipliers.zeros, hsized.ineq, hsized.eq]

end Run.Parallel

/-! ### Runs on problems -/

/-- The problem in a new frame: at `y` it has the objective and the constraints of the point that is
seen there. -/
def Callbacks.movedBy (p : Callbacks Id ℝ) (F : Frame n) : Callbacks Id ℝ :=
  { p with
    objective := fun y => p.objective (F.back y)
    constraints := fun y => p.constraints (F.back y) }

/-- The solution in a new frame. -/
def Solution.movedBy (sol : Solution ℝ) (F : Frame n) : Solution ℝ :=
  { sol with x := F.apply sol.x }

theorem Frame.MovesSolution.eq_movedBy {sol sol' : Solution ℝ} (h : F.MovesSolution sol sol') :
    sol' = sol.movedBy F := by
  rw [Solution.movedBy, ← h.point.eq_apply, ← h.value, ← h.exitFlag, ← h.iterations]

/-- Difference quotients and the two update rules do the same in every frame. -/
theorem Frame.shows_movedBy (F : Frame n)
    (hest : p.gradient = Plan.forward ∨ p.gradient = Plan.central)
    (hrule : p.update = UpdateRule.bfgs ∨ p.update = UpdateRule.dfp) : F.Shows p (p.movedBy F) where
  objective _ _ h := congrArg p.objective h.back_eq
  constraints _ _ h := congrArg p.constraints h.back_eq
  gradient := rfl
  estimator := by
    rcases hest with hest | hest
    · exact hest ▸ Plan.frameless_forward F
    · exact hest ▸ Plan.frameless_central F
  update := rfl
  rule := by
    rcases hrule with hrule | hrule
    · exact hrule ▸ UpdateRule.frameless_bfgs F
    · exact hrule ▸ UpdateRule.frameless_dfp F

namespace Run

/-- **Solvers do not depend on the origin or on the order of coordinates**, in exact arithmetic. The
functions of the problem keep no state, there are `ng` inequalities and `nh` equalities everywhere,
gradients are estimated by difference quotients, and the update rule is one of the two of the
library. If the `n` coordinates are taken in another order and from another origin, each method of
descent and the augmented Lagrangian method give the same solution in the new coordinates, with the
same multipliers, or fail with the same failure, and they tell the monitor the same. -/
theorem frameless_of_recordOn {σ σ' : Type} {problem : Callbacks (StateM σ) ℝ}
    {problem' : Callbacks (StateM σ') ℝ} (F : Frame n) (hproblem : problem.Agrees p)
    (hproblem' : problem'.Agrees (p.movedBy F)) (hsized : p.Sized ng nh)
    (hest : p.gradient = Plan.forward ∨ p.gradient = Plan.central)
    (hrule : p.update = UpdateRule.bfgs ∨ p.update = UpdateRule.dfp) {x₀ : Vec ℝ}
    (hx₀ : x₀.length = n) (opt : Options ℝ) (lagOpt : LagrangianOptions ℝ) (s : σ) (s' : σ') :
    (∀ method : Method,
      let out := (((method.solve opt x₀).recordOn problem).run s).1
      let out' := (((method.solve opt (F.apply x₀)).recordOn problem').run s').1
      out'.1 = out.1.map (fun sol => sol.movedBy F) ∧ out'.2.progress = out.2.progress) ∧
    let out := (((augmentedLagrangian opt lagOpt x₀).recordOn problem).run s).1
    let out' := (((augmentedLagrangian opt lagOpt (F.apply x₀)).recordOn problem').run s').1
    out'.1 = out.1.map (fun q => (q.1.movedBy F, q.2)) ∧ out'.2.progress = out.2.progress := by
  have hp := F.shows_movedBy hest hrule
  have hpoint := F.moves_apply hx₀
  have hsized' : (p.movedBy F).Sized ng nh :=
    ⟨fun y => hsized.ineq (F.back y), fun y => hsized.eq (F.back y)⟩
  constructor
  · intro method out out'
    obtain ⟨hresult, hprogress⟩ :=
      (method.parallel_solve hp opt hpoint).recordOn hproblem hproblem' s s'
    exact ⟨Corresponds.map_eq (hresult.mono fun _ _ h => h.eq_movedBy), hprogress⟩
  · intro out out'
    obtain ⟨hresult, hprogress⟩ :=
      (Parallel.augmentedLagrangian hp hsized hsized' opt lagOpt hpoint).recordOn hproblem hproblem'
        s s'
    exact ⟨Corresponds.map_eq (hresult.mono fun _ _ h => Prod.ext h.1.eq_movedBy h.2), hprogress⟩

/-- A sum of squares in the unit disc, with its two coordinates swapped and another origin. -/
theorem frameless_of_recordOn_swapped :
    let F : Frame 2 := ⟨Equiv.swap 0 1, ![5, -1]⟩
    let p : Callbacks Id ℝ := {
      objective := fun x => pure (Vec.dot x x)
      constraints := fun x => pure ⟨[Vec.dot x x - 1], []⟩
      gradient := Plan.central
      update := UpdateRule.bfgs
      progress := fun _ => pure ()
      note := fun _ => pure () }
    let problem (p : Callbacks Id ℝ) : Callbacks (StateM Unit) ℝ := {
      objective := fun x => pure (p.objective x)
      constraints := fun x => pure (p.constraints x)
      gradient := fun x h => pure (p.gradient x h)
      update := fun b dx dg => pure (p.update b dx dg)
      progress := fun _ => pure ()
      note := fun _ => pure () }
    let out := (((steepestDescent .default [3, 1]).recordOn (problem p)).run ()).1
    let out' := (((steepestDescent .default [6, 2]).recordOn (problem (p.movedBy F))).run ()).1
    ∃ sol, out.1 = .ok sol ∧ out'.1 = .ok (sol.movedBy F) ∧ out'.2.progress = out.2.progress := by
  intro F p problem out out'
  have hagrees : ∀ p, (problem p).Agrees p := fun p q _ => by cases q <;> rfl
  have hlength : ([3, 1] : Vec ℝ).length = 2 := rfl
  have hstart : F.apply [3, 1] = [6, 2] := by
    have h₀ : (1 : ℝ) + 5 = 6 := by norm_num
    have h₁ : (3 : ℝ) + -1 = 2 := by norm_num
    simp [Frame.apply, Vec.coords, F, h₀, h₁]
  have hopt : (Options.default : Options ℝ).fault? = none :=
    Options.fault?_eq_none_iff.mpr (Options.usable_default (show 200 ≠ 0 by decide))
  have hends : Ends (Method.steepestDescent.solve .default [3, 1]) out.2 out.1 := ends_recordOn _ ()
  have hnot : ∀ b dx dg answer, ⟨.update b dx dg, answer⟩ ∉ out.2 := fun b dx dg answer hx =>
    absurd (Method.eq_quasiNewton_of_update hends hx) (by decide)
  have hplans : out.2.EstimatorIs Plan.central := (hagrees p).recordOn.estimatorIs
  obtain ⟨sol, hsol⟩ := Method.succeeds_of_ends hends hopt (List.cons_ne_nil _ _)
    ⟨fun x h plan hx => Or.inr (hplans x h plan hx), fun b dx dg e hx => absurd hx (hnot b dx dg _)⟩
  obtain ⟨hmethods, -⟩ := frameless_of_recordOn F (hagrees p) (hagrees (p.movedBy F))
    ⟨fun _ => rfl, fun _ => rfl⟩ (Or.inr rfl) (Or.inl rfl) hlength .default .default () ()
  obtain ⟨hresult, hprogress⟩ := hmethods .steepestDescent
  rw [hstart] at hresult hprogress
  refine ⟨sol, hsol, ?_, hprogress⟩
  exact hresult.trans (congrArg (Except.map fun sol => sol.movedBy F) hsol)

end Run

end Optimum

import Optimum.Proofs.Descent.Decrease
import Optimum.Proofs.Lagrangian.Multipliers
import Optimum.Proofs.Lagrangian.Success
import Optimum.Proofs.Loop

/-!
# What a solution of the augmented Lagrangian method says

The outer iterations on a problem without a state go through a sequence of iterates that is fixed by
the starting point: each minimises the Lagrangian for the multipliers that the residuals at the
iterates before it have added up to. A result certifies how far a run went along this sequence, and
why it stopped there.

## What is proved

* `OuterCourse.next_of_ends` is the step lemma, and `OuterCourse.certificate_of_ends` the induction
  over the loop.
* `Run.outcome_of_recordOn`: the result of a run, with the multipliers in closed form.
-/

namespace Optimum

open Scalar

/-- Outer iterations on the problem `p`, from the point `x₀`. -/
structure OuterCourse (α : Type) where
  /-- The problem. -/
  problem : Callbacks Id α
  /-- The options. -/
  opt : Options α
  /-- The penalty parameter and the options of the inner runs. -/
  lagOpt : LagrangianOptions α
  /-- The starting point. -/
  x₀ : Vec α

namespace OuterCourse

variable {α : Type} [Scalar α] (c : OuterCourse α)

/-! ### The sequence of iterates -/

/-- The objective, without multipliers. -/
def f (x : Vec α) : α := c.problem.objective x

/-- The problem of the inner run from an outer iterate. -/
def lagrangian (it : OuterIterate α) : Callbacks Id α :=
  c.problem.under ⟨it.multipliers, c.lagOpt.rho⟩

/-- The outcome of the inner run from an outer iterate: a quasi-Newton run from its point, on the
Lagrangian for its multipliers. -/
def innerOutcome (it : OuterIterate α) : Except (Failure α) (Solution α) :=
  Id.run ((Run.quasiNewton c.lagOpt.inner it.x).on (c.lagrangian it))

/-- The outer iterate at a point, with the multipliers `lam` moved by the residuals there. -/
def arrive (lam : Multipliers α) (x : Vec α) : OuterIterate α :=
  ⟨x, c.f x, lam.update c.lagOpt.rho (c.problem.constraints x)⟩

/-- The outer iterates. Where an inner run fails the point stays. -/
def it : ℕ → OuterIterate α
  | 0 =>
    let r : Residuals α := c.problem.constraints c.x₀
    ⟨c.x₀, c.f c.x₀, .zeros r.ineq.length r.eq.length⟩
  | k + 1 =>
    match c.innerOutcome (it k) with
    | .ok inner => c.arrive (it k).multipliers inner.x
    | .error _ => c.arrive (it k).multipliers (it k).x

/-- The points. -/
def x (k : ℕ) : Vec α := (c.it k).x

/-- The norm of the gradient at iterate `k`, of the Lagrangian with the multipliers of the same
iterate. -/
def gradNorm (k : ℕ) : α :=
  Vec.norm ((c.problem.gradient (c.x k) c.opt.fdStep).answered (c.lagrangian (c.it k)).objective)

/-- The distance from the iterate before. -/
def stepSize (k : ℕ) : α := Vec.distance (c.x k) (c.x (k - 1))

/-- The change of the objective. -/
def change (k : ℕ) : α := magnitude (c.f (c.x k) - c.f (c.x (k - 1)))

/-- What the monitor is told of iteration number `k`. -/
def record (k : ℕ) : Progress α := ⟨k, c.f (c.x k), c.gradNorm k, c.stepSize k, 1⟩

variable {c} {k left : ℕ} {t : Transcript α} {i : OuterIteration α}

theorem it_f (k : ℕ) : (c.it k).f = c.f (c.x k) := by
  cases k with
  | zero => rfl
  | succ k =>
    rw [x, it]
    split <;> rfl

theorem it_succ {inner : Solution α} (h : c.innerOutcome (c.it k) = .ok inner) :
    c.it (k + 1) = c.arrive (c.it k).multipliers inner.x := by
  rw [it, h]

/-- **An outer iteration goes from one iterate to the next.** -/
theorem next_of_ends (h : Run.Ends (Run.outerIteration c.opt c.lagOpt k (c.it k)) t (.ok i))
    (ht : t.AnsweredBy c.problem) :
    (∃ inner, c.innerOutcome (c.it k) = .ok inner ∧ inner.x = c.x (k + 1)) ∧
      i.next = c.it (k + 1) ∧ i.progress = c.record (k + 1) := by
  obtain ⟨t₁, inner, r, t₂, g, f, h₁, -, h₂, -, rfl, rfl⟩ := Run.ends_outerIteration_ok_iff.mp h
  have hr : r = c.problem.constraints inner.x :=
    ht ⟨.constraints inner.x, r⟩ (by simp)
  have hf : f = c.f inner.x := ht ⟨.objective inner.x, f⟩ (by simp)
  subst hr hf
  obtain ⟨u₁, hu₁, hans₁⟩ := Run.ends_of_ends_under h₁ ht.left.left
  have hinner : c.innerOutcome (c.it k) = .ok inner := Run.on_eq_of_ends hu₁ hans₁
  have hnext := it_succ hinner
  have hx : c.x (k + 1) = inner.x := congrArg OuterIterate.x hnext
  have ht₂ : t₂.AnsweredBy c.problem := fun y hy => ht y (by simp [hy])
  obtain ⟨u₂, hu₂, hans₂⟩ := Run.ends_of_ends_under h₂ ht₂
  have hg := Run.eq_of_ends_finiteGradient hu₂ hans₂.objectiveIs hans₂.estimatorIs
  have hgrad : c.gradNorm (k + 1) = Vec.norm g := by
    rw [hg, gradNorm, hx, hnext]
    rfl
  refine ⟨⟨inner, hinner, hx.symm⟩, hnext.symm, ?_⟩
  rw [record, hgrad, stepSize, hx]
  rfl

/-! ### Certificates -/

/-- What a result says of the course from iterate `k` on, and of what the monitor was told. -/
structure Certificate (c : OuterCourse α) (k : ℕ) (records : List (Progress α)) (sol : Solution α)
    (lam : Multipliers α) : Prop where
  /-- At least one iteration was made. -/
  later : k < sol.iterations
  /-- No more than allowed were made. -/
  within : sol.iterations ≤ c.opt.maxIt
  /-- Each inner run gave a result, the point of which is the next one. -/
  inner : ∀ j, k ≤ j → j < sol.iterations →
    ∃ inner, c.innerOutcome (c.it j) = .ok inner ∧ inner.x = c.x (j + 1)
  /-- The monitor was told of each iteration. -/
  records : records = (List.Ico (k + 1) (sol.iterations + 1)).map c.record
  /-- The solution is the last point. -/
  point : sol.x = c.x sol.iterations
  /-- Its value is that of the objective. -/
  value : sol.f = c.f sol.x
  /-- The multipliers are the last ones. -/
  multipliers : lam = (c.it sol.iterations).multipliers
  /-- The flag says whether the budget is spent. -/
  exhausted : sol.exitFlag = .maxIterations ↔ sol.iterations = c.opt.maxIt
  /-- If it is not, the flag says which test was met first. -/
  met : sol.iterations ≠ c.opt.maxIt → c.opt.FirstMet (c.gradNorm sol.iterations)
    (c.stepSize sol.iterations) (c.change sol.iterations) sol.exitFlag
  /-- No test was met before. -/
  unmet : ∀ j, k < j → j < sol.iterations →
    c.opt.toleranceMet (c.gradNorm j) (c.stepSize j) (c.change j) = none

/-- The exit tests after an iteration are made on the course. -/
theorem met?_eq (hnext : i.next = c.it (k + 1)) (hprogress : i.progress = c.record (k + 1)) :
    (Run.outerLoop c.opt c.lagOpt).met? c.opt (c.it k) i =
      c.opt.toleranceMet (c.gradNorm (k + 1)) (c.stepSize (k + 1)) (c.change (k + 1)) := by
  change c.opt.toleranceMet i.progress.gradNorm i.progress.stepSize
    (magnitude (i.next.f - (c.it k).f)) = _
  rw [hprogress, hnext, it_f, it_f]
  rfl

/-- The certificate of a run that ends with iteration number `k + 1`. -/
theorem Certificate.last {flag : ExitFlag} (hle : k + 1 ≤ c.opt.maxIt)
    (hinner : ∃ inner, c.innerOutcome (c.it k) = .ok inner ∧ inner.x = c.x (k + 1))
    (hnext : i.next = c.it (k + 1)) (hprogress : i.progress = c.record (k + 1))
    (hexhausted : flag = .maxIterations ↔ k + 1 = c.opt.maxIt)
    (hmet : k + 1 ≠ c.opt.maxIt → c.opt.toleranceMet (c.gradNorm (k + 1)) (c.stepSize (k + 1))
      (c.change (k + 1)) = some flag) :
    c.Certificate k [i.progress] ⟨i.next.x, i.next.f, flag, i.progress.iteration⟩
      i.next.multipliers := by
  rw [hnext, hprogress, it_f]
  refine {
    later := Nat.lt_succ_self k
    within := hle
    inner := fun j hj hlt => ?_
    records := ?_
    point := rfl
    value := rfl
    multipliers := rfl
    exhausted := hexhausted
    met := fun h => .of_toleranceMet (hmet h)
    unmet := fun j hj hlt => absurd hj (Nat.not_lt.mpr (Nat.le_of_lt_succ hlt)) }
  · obtain rfl : j = k := Nat.le_antisymm (Nat.le_of_lt_succ hlt) hj
    exact hinner
  · rw [show (c.record (k + 1)).iteration + 1 = k + 1 + 1 from rfl, List.Ico.succ_singleton,
      List.map_singleton]

/-- The certificate of a run that goes on after iteration number `k + 1`. -/
theorem Certificate.cons {records : List (Progress α)} {sol : Solution α} {lam : Multipliers α}
    (hinner : ∃ inner, c.innerOutcome (c.it k) = .ok inner ∧ inner.x = c.x (k + 1))
    (hunmet : c.opt.toleranceMet (c.gradNorm (k + 1)) (c.stepSize (k + 1)) (c.change (k + 1)) = none)
    (h : c.Certificate (k + 1) records sol lam) :
    c.Certificate k (c.record (k + 1) :: records) sol lam := by
  refine { h with
    later := Nat.lt_of_succ_lt h.later
    inner := fun j hj hlt => ?_
    records := ?_
    unmet := fun j hj hlt => ?_ }
  · rcases hj.eq_or_lt with rfl | hj
    · exact hinner
    · exact h.inner j hj hlt
  · rw [List.Ico.eq_cons (Nat.lt_succ_of_lt h.later), List.map_cons, h.records]
  · rcases (Nat.succ_le_of_lt hj).eq_or_lt with rfl | hj
    · exact hunmet
    · exact h.unmet j hj hlt

/-- **A result certifies how far the run went**, by induction on the iterations that are left. -/
theorem certificate_of_ends {sol : Solution α} {lam : Multipliers α}
    (hleft : k + left + 1 = c.opt.maxIt)
    (h : Run.Ends (Run.outerDescend c.opt c.lagOpt left k (c.it k)) t (.ok (sol, lam)))
    (ht : t.AnsweredBy c.problem) : c.Certificate k t.progress sol lam := by
  rw [Run.outerDescend_eq_run] at h
  replace h := Loop.runs_of_ends h
  generalize hr : Except.ok (sol, lam) = r at h
  generalize hσ : c.it k = σ at h
  induction h with
  | fails _ => cases hr
  | breaks _ _ _ => cases hr
  | @stops left k σ t i flag h₁ hexit =>
    subst hσ
    cases hr
    obtain ⟨hinner, hnext, hprogress⟩ := next_of_ends h₁ ht.left
    rw [Transcript.progress_append, (Run.progress_of_ends_outerIteration h₁).1]
    cases left with
    | zero =>
      cases hexit
      exact .last hleft.le hinner hnext hprogress ⟨fun _ => hleft, fun _ => rfl⟩ fun hne =>
        absurd hleft hne
    | succ left =>
      have htests := (met?_eq hnext hprogress).symm.trans hexit
      have hne : k + 1 ≠ c.opt.maxIt := by omega
      have hflag := (Options.FirstMet.of_toleranceMet htests).ne_maxIterations
      exact .last (by omega) hinner hnext hprogress ⟨fun h => absurd h hflag, fun h => absurd h hne⟩
        fun _ => htests
  | goesOn h₁ hmet h₃ _ ih =>
    subst hσ
    obtain ⟨hinner, hnext, hprogress⟩ := next_of_ends h₁ ht.left
    obtain ⟨rfl, hcarry⟩ := Run.ends_pure_iff.mp h₃
    have hrest := ih (by omega) ht.right hr (hnext.symm.trans (Except.ok.inj hcarry).symm)
    rw [Transcript.progress_append, (Run.progress_of_ends_outerIteration h₁).1, hprogress]
    exact .cons hinner ((met?_eq hnext hprogress).symm.trans hmet) hrest

end OuterCourse

/-! ### Runs on problems -/

namespace OuterCourse

variable {c : OuterCourse ℝ} {ng nh : ℕ}

/-- **The multipliers in closed form.** -/
theorem multipliers_eq (hsized : c.problem.Sized ng nh) (k : ℕ) :
    (c.it k).multipliers =
      .accumulated c.lagOpt.rho (fun l => c.problem.constraints (c.x l)) ng nh k := by
  induction k with
  | zero =>
    rw [Multipliers.accumulated_zero]
    exact congrArg₂ Multipliers.zeros (hsized.ineq c.x₀) (hsized.eq c.x₀)
  | succ k ih =>
    have hstep : (c.it (k + 1)).multipliers =
        (c.it k).multipliers.update c.lagOpt.rho (c.problem.constraints (c.x (k + 1))) := by
      rw [x, it]
      split <;> rfl
    rw [hstep, ih]
    exact Multipliers.update_accumulated (hsized.ineq _) (hsized.eq _)

end OuterCourse

namespace Run

/-- **The result of the augmented Lagrangian method is certified by its flag**, in exact arithmetic,
if the callbacks keep no state and the constraints have the same numbers of residuals everywhere.
With `K` iterations, the solution is the last of the points `x₀, …, x_K`, each but the first of them
the result of a quasi-Newton run from the one before, with the inner options, on the Lagrangian for
the multipliers accumulated up to there; the value is that of the objective; the multipliers are
those accumulated at the last point, as many as there are constraints, and not negative for
inequalities; `K` is at least one and at most the number allowed; the flag says that the budget is
spent exactly if `K` is that number, and otherwise which test was met first, with the gradient of the
Lagrangian for the returned multipliers; and no test was met before. -/
theorem outcome_of_recordOn {σ : Type} {problem : Callbacks (StateM σ) ℝ} {p : Callbacks Id ℝ}
    {ng nh : ℕ} (hp : problem.Agrees p) (hsized : p.Sized ng nh) (opt : Options ℝ)
    (lagOpt : LagrangianOptions ℝ) (x₀ : Vec ℝ) (s : σ) :
    let out := (((augmentedLagrangian opt lagOpt x₀).recordOn problem).run s).1
    let c : OuterCourse ℝ := ⟨p, opt, lagOpt, x₀⟩
    (∀ k, (c.it k).multipliers =
      .accumulated lagOpt.rho (fun l => p.constraints (c.x l)) ng nh k) ∧
    ∀ sol lam, out.1 = .ok (sol, lam) → c.x 0 = x₀ ∧ c.Certificate 0 out.2.progress sol lam ∧
      lam.ineq.length = ng ∧ lam.eq.length = nh ∧ ∀ mu ∈ lam.ineq, 0 ≤ mu := by
  intro out c
  have hmultipliers : ∀ k, (c.it k).multipliers =
      .accumulated lagOpt.rho (fun l => p.constraints (c.x l)) ng nh k :=
    OuterCourse.multipliers_eq hsized
  refine ⟨hmultipliers, fun sol lam hsol => ?_⟩
  have hends : Ends (augmentedLagrangian opt lagOpt x₀) out.2 out.1 := ends_recordOn _ s
  have hanswers : out.2.AnsweredBy p := hp.recordOn
  rw [hsol] at hends
  rcases of_ends_augmentedLagrangian hends with ⟨e, he, -⟩ | ⟨a, f, u, hopt, -, -, -, -, ht, h⟩
  · cases he
  rw [ht] at hanswers ⊢
  obtain ⟨ha, hanswers⟩ := List.forall_mem_cons.mp hanswers
  obtain ⟨hf, hrest⟩ := List.forall_mem_cons.mp hanswers
  have ha : a = p.constraints x₀ := ha
  have hf : f = p.objective x₀ := hf
  subst ha hf
  have hmaxIt := (Options.fault?_eq_none_iff.mp hopt).maxIt
  have hcert : c.Certificate 0 (Transcript.progress u) sol lam :=
    OuterCourse.certificate_of_ends (show 0 + (opt.maxIt - 1) + 1 = opt.maxIt by omega) h hrest
  have hlam : lam = .accumulated lagOpt.rho (fun l => p.constraints (c.x l)) ng nh sol.iterations :=
    hcert.multipliers.trans (hmultipliers _)
  refine ⟨rfl, hcert, ?_⟩
  rw [hlam]
  exact ⟨List.length_ofFn, List.length_ofFn, Multipliers.accumulated_nonneg⟩

/-- The point of the half-plane `a ≥ 1` and the line `b = 1` that is nearest to the origin, sought
from `[3, 1]` with at most two outer iterations. -/
theorem outcome_of_recordOn_nearest :
    let p : Callbacks Id ℝ := {
      objective := fun x => pure (Vec.dot x x)
      constraints := fun x => pure ⟨[1 - x.getD 0 0], [x.getD 1 0 - 1]⟩
      gradient := fun x h => pure (.central x h)
      update := fun b _ _ => pure (.ok b.cleared)
      progress := fun _ => pure ()
      note := fun _ => pure () }
    let problem : Callbacks (StateM Unit) ℝ := {
      objective := fun x => pure (p.objective x)
      constraints := fun x => pure (p.constraints x)
      gradient := fun x h => pure (p.gradient x h)
      update := fun b dx dg => pure (p.update b dx dg)
      progress := fun _ => pure ()
      note := fun _ => pure () }
    let opt : Options ℝ := { Options.default with maxIt := 2 }
    let out := (((augmentedLagrangian opt .default [3, 1]).recordOn problem).run ()).1
    let c : OuterCourse ℝ := ⟨p, opt, .default, [3, 1]⟩
    problem.Agrees p ∧ p.Sized 1 1 ∧ ∃ sol lam, out.1 = .ok (sol, lam) ∧
      c.Certificate 0 out.2.progress sol lam ∧ lam.ineq.length = 1 ∧ lam.eq.length = 1 := by
  intro p problem opt out c
  have hp : problem.Agrees p := fun q _ => by cases q <;> rfl
  have hsized : p.Sized 1 1 := ⟨fun _ => rfl, fun _ => rfl⟩
  have hharmless : p.Harmless := {
    gradient := fun _ _ => Or.inr rfl
    change := fun b dx dg db h => by
      cases h
      exact b.sameShape_cleared
    refusal := fun _ _ _ _ => nofun }
  have hopt : opt.fault? = none :=
    Options.fault?_eq_none_iff.mpr (Options.usable_default two_ne_zero)
  have hinner : (LagrangianOptions.default : LagrangianOptions ℝ).inner.fault? = none :=
    Options.fault?_eq_none_iff.mpr (Options.usable_default (show 200 ≠ 0 by decide))
  have hlag : (LagrangianOptions.default : LagrangianOptions ℝ).fault? = none := by
    rw [LagrangianOptions.fault?, if_neg, hinner]
    exact not_not.mpr ⟨one_pos, rfl⟩
  obtain ⟨-, hcertified⟩ := outcome_of_recordOn hp hsized opt .default [3, 1] ()
  have hends : Ends (augmentedLagrangian opt .default [3, 1]) out.2 out.1 := ends_recordOn _ ()
  obtain ⟨⟨sol, lam⟩, hsol, -⟩ := Gives.augmentedLagrangian hharmless hsized hopt hlag
    (List.cons_ne_nil 3 [1]) out.2 out.1 hends hp.recordOn
  obtain ⟨-, hcert, hineq, heq, -⟩ := hcertified sol lam hsol
  exact ⟨hp, hsized, sol, lam, hsol, hcert, hineq, heq⟩

end Run

end Optimum

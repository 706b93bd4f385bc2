import Optimum.Proofs.Descent.Decrease
import Optimum.Proofs.Lagrangian.Success
import Optimum.Proofs.Penalty
import Optimum.Proofs.Penalty.Exterior

/-!
# The first outer iteration

The multipliers start at zero, and there the augmented Lagrangian has the values of the penalty
transform. So if objective and constraints keep no state, the inner run of the first outer iteration
is a quasi-Newton run on the penalty transform, question by question, and the method with one outer
iteration is this run, followed by one update of the multipliers. The estimator of gradients and the
update rule may keep a state: each of their calls is made in the same state in both runs.

## What is proved

* `Run.on_under`: a run under a Lagrangian is a run on a problem that has the Lagrangian for its
  objective, if the residuals pass the check everywhere.
* `Callbacks.augmented_zeros`: with zero multipliers, that is the problem with the penalty transform.
* `Run.outerIteration_of_on`: what an outer iteration gives, whatever the multipliers.
* `Run.firstIteration_of_on`: what the method gives after one outer iteration.
-/

namespace Optimum

open Scalar

namespace Callbacks

variable {α : Type} [Scalar α] {m : Type → Type} [Monad m]

/-- The problem without its monitor. -/
def unmonitored (problem : Callbacks m α) : Callbacks m α :=
  { problem with progress := fun _ => pure () }

/-- The problem whose objective is a Lagrangian of that of `problem`, under constraints that keep no
state. It has no monitor. -/
def augmented (problem : Callbacks m α) (l : Lagrangian α) (con : Vec α → Residuals α) :
    Callbacks m α :=
  { problem.unmonitored with
    objective := fun x => (fun v => l.combine v (con x)) <$> problem.objective x }

end Callbacks

/-! ### Runs under a Lagrangian -/

section Augmented

variable {α β : Type} [Scalar α] {m : Type → Type} [Monad m] [LawfulMonad m]
  {problem : Callbacks m α} {con : Vec α → Residuals α} {l : Lagrangian α}

/-- One question, relayed. No failure is kept. -/
theorem Lagrangian.run_relay (hcon : ∀ x, problem.constraints x = pure (con x))
    (hcheck : ∀ x, l.check (con x) = .ok ()) (q : Question α) :
    ((l.relay q).run none).run problem.answer =
      (fun a => (a, none)) <$> (problem.augmented l con).answer q := by
  cases q with
  | objective x =>
    rw [relay, run_value, Dialogue.query_bind, Dialogue.run_ask]
    change (problem.constraints x >>= _) = _
    rw [hcon, pure_bind, hcheck]
    change (problem.objective x >>= fun v => pure (l.combine v (con x), none)) =
      (fun a => (a, none)) <$> (fun v => l.combine v (con x)) <$> problem.objective x
    rw [Functor.map_map, map_eq_pure_bind]
  | progress p =>
    change pure ((), none) = (fun a => (a, none)) <$> (pure () : m Unit)
    rw [map_pure]
  | constraints x => exact (map_eq_pure_bind _ _).symm
  | gradient x h => exact (map_eq_pure_bind _ _).symm
  | update b dx dg => exact (map_eq_pure_bind _ _).symm
  | note n => exact (map_eq_pure_bind _ _).symm

/-- A dialogue, relayed. -/
theorem Lagrangian.run_run_relay (hcon : ∀ x, problem.constraints x = pure (con x))
    (hcheck : ∀ x, l.check (con x) = .ok ()) (d : Dialogue (Answer α) β) :
    ((d.run l.relay).run none).run problem.answer =
      (fun b => (b, none)) <$> d.run (problem.augmented l con).answer := by
  induction d with
  | done b =>
    rw [Dialogue.run_done, Dialogue.run_done, map_pure]
    rfl
  | ask q next ih =>
    rw [Dialogue.run_ask, StateT.run_bind, Dialogue.run_bind, run_relay hcon hcheck,
      Dialogue.run_ask, map_bind, bind_map_left]
    exact bind_congr ih

namespace Run

/-- **A run under a Lagrangian is a run on the problem that has the Lagrangian for its objective**, if
the residuals pass the check everywhere. -/
theorem on_under (hcon : ∀ x, problem.constraints x = pure (con x))
    (hcheck : ∀ x, l.check (con x) = .ok ()) (run : Run α β) :
    (under l run).on problem = run.on (problem.augmented l con) := by
  have hkept : ∀ r : Except (Failure α) β, r.mapError (Option.getD none) = r := by
    intro r
    cases r <;> rfl
  change Dialogue.run problem.answer ((run.run.run l.relay).run none >>= fun p =>
    pure (p.1.mapError p.2.getD)) = _
  rw [Dialogue.run_bind, Lagrangian.run_run_relay hcon hcheck, bind_map_left]
  simp only [Dialogue.pure_def, Dialogue.run_done, hkept, bind_pure]
  rfl

/-- The gradient of an objective that keeps no state. -/
theorem on_finiteGradient {f : Vec α → α} (hf : ∀ x, problem.objective x = pure (f x)) (x : Vec α)
    (h : α) :
    (finiteGradient x h).on problem =
      (fun plan => checkGradient x (plan.answered f)) <$> problem.gradient x h := by
  have hobjective : problem.objective = fun x => pure (f x) := funext hf
  rw [finiteGradient, gradient, bind_assoc, on_query_bind, map_eq_pure_bind]
  refine bind_congr fun plan => ?_
  rw [on_bind, on_plan, hobjective, Dialogue.run_pure, map_pure, pure_bind]
  unfold checkGradient
  dsimp only
  split_ifs <;> rfl

end Run

end Augmented

/-! ### Zero multipliers -/

section Exact

variable {β : Type} {m : Type → Type} [Monad m] [LawfulMonad m] {problem : Callbacks m ℝ}
  {f : Vec ℝ → ℝ} {con : Vec ℝ → Residuals ℝ} {ng nh : ℕ}

/-- With zero multipliers the Lagrangian has the values of the penalty transform. -/
theorem Lagrangian.combine_zeros (rho v : ℝ) (r : Residuals ℝ) :
    combine ⟨.zeros ng nh, rho⟩ v r = v + rho * r.violation := by
  have hdot : ∀ (n : ℕ) (b : Vec ℝ), Vec.dot (List.replicate n 0) b = 0 := by
    intro n b
    rw [Vec.dot_eq_sum_zip]
    refine List.sum_eq_zero fun v hv => ?_
    obtain ⟨p, hp, rfl⟩ := List.mem_map.mp hv
    rw [List.eq_of_mem_replicate (List.of_mem_zip hp).1, zero_mul]
  change v + Vec.dot (List.replicate nh 0) r.eq + Vec.dot (List.replicate ng 0) r.ineq + _ = _
  rw [hdot, hdot, add_zero, add_zero]

/-- **The problem with zero multipliers is the problem with the penalty transform.** -/
theorem Callbacks.augmented_zeros (hcon : ∀ x, problem.constraints x = pure (con x)) (rho : ℝ) :
    problem.augmented ⟨.zeros ng nh, rho⟩ con = (problem.penalized rho).unmonitored := by
  have hobjective : ∀ x,
      (fun v => Lagrangian.combine ⟨.zeros ng nh, rho⟩ v (con x)) <$> problem.objective x =
        penalty problem.objective problem.constraints rho x := by
    intro x
    rw [penalty, hcon, pure_bind, map_eq_pure_bind]
    exact bind_congr fun v => congrArg pure (Lagrangian.combine_zeros rho v (con x))
  simp only [augmented, hobjective]
  rfl

/-- The first update of the multipliers. -/
theorem Multipliers.update_zeros {r : Residuals ℝ} (h : (zeros ng nh).Fits r) (rho : ℝ) :
    (zeros ng nh).update rho r =
      ⟨r.ineq.map fun g => max 0 (rho * g), r.eq.map fun e => rho * e⟩ := by
  have hmap : ∀ (k : ℝ → ℝ → ℝ) (n : ℕ) (b : Vec ℝ), b.length = n →
      List.zipWith k (List.replicate n 0) b = b.map (k 0) := by
    rintro k n b rfl
    induction b with
    | nil => rfl
    | cons v b ih => exact congrArg (k 0 v :: ·) ih
  have hineq : r.ineq.length = ng := h.ineq.trans List.length_replicate
  have heq : r.eq.length = nh := h.eq.trans List.length_replicate
  simp only [update, zeros, hmap _ _ _ hineq, hmap _ _ _ heq, zero_add, excess_real, max_comm]

/-! ### Outer iterations -/

namespace Run

variable {opt : Options ℝ} {lagOpt : LagrangianOptions ℝ}

/-- In exact arithmetic every value of the objective passes the check. -/
theorem on_finiteObjective_bind (hf : ∀ x, problem.objective x = pure (f x)) (x : Vec ℝ)
    (next : ℝ → Run ℝ β) : (finiteObjective x >>= next).on problem = (next (f x)).on problem := by
  rw [finiteObjective, bind_assoc, objective, on_query_bind]
  change problem.objective x >>= _ = _
  rw [hf, pure_bind]
  rfl

/-- An evaluation of the constraints, and a check that the residuals pass. -/
theorem on_constraints_bind (hcon : ∀ x, problem.constraints x = pure (con x))
    {check : Residuals ℝ → Except (Failure ℝ) Unit} {x : Vec ℝ} (hcheck : check (con x) = .ok ())
    (next : Residuals ℝ → Run ℝ β) :
    ((do let r ← constraints x; check r; pure r) >>= next).on problem =
      (next (con x)).on problem := by
  rw [bind_assoc, constraints, on_query_bind]
  change problem.constraints x >>= _ = _
  rw [hcon, pure_bind, hcheck]
  rfl

/-- The gradient of a Lagrangian. -/
theorem on_under_finiteGradient (hf : ∀ x, problem.objective x = pure (f x))
    (hcon : ∀ x, problem.constraints x = pure (con x)) {l : Lagrangian ℝ}
    (hfits : ∀ x, l.multipliers.Fits (con x)) (x : Vec ℝ) (h : ℝ) :
    (under l (finiteGradient x h)).on problem =
      (fun plan => checkGradient x (plan.answered (l.valueAt f con))) <$> problem.gradient x h := by
  have hobjective : ∀ y, (problem.augmented l con).objective y = pure (l.valueAt f con y) := by
    intro y
    change (fun v => l.combine v (con y)) <$> problem.objective y = _
    rw [hf, map_pure, Lagrangian.valueAt_eq (hfits y)]
  rw [on_under hcon fun y => Lagrangian.check_of_fits (hfits y), on_finiteGradient hobjective]
  rfl

/-- The method up to its first outer iteration. -/
theorem on_augmentedLagrangian (hf : ∀ x, problem.objective x = pure (f x))
    (hcon : ∀ x, problem.constraints x = pure (con x)) (hineq : ∀ x, (con x).ineq.length = ng)
    (heq : ∀ x, (con x).eq.length = nh) (hopt : opt.validate = .ok ())
    (hlag : lagOpt.validate = .ok ()) {x₀ : Vec ℝ} (hx₀ : x₀ ≠ []) :
    (augmentedLagrangian opt lagOpt x₀).on problem =
      (outerDescend opt lagOpt (opt.maxIt - 1) 0 ⟨x₀, f x₀, .zeros ng nh⟩).on problem := by
  have hcheck : (con x₀).checkFinite = .ok () := by simp [Residuals.checkFinite]
  rw [augmentedLagrangian_of_valid hopt, hlag, if_neg hx₀]
  change (initialConstraints x₀ >>= fun r => finiteObjective x₀ >>= fun v =>
    outerDescend opt lagOpt (opt.maxIt - 1) 0 ⟨x₀, v, .zeros r.ineq.length r.eq.length⟩).on _ = _
  rw [initialConstraints, on_constraints_bind hcon hcheck, on_finiteObjective_bind hf, hineq, heq]

end Run

end Exact

/-! ### Results -/

namespace Run

variable {σ : Type} {problem : Callbacks (StateM σ) ℝ} {f : Vec ℝ → ℝ} {con : Vec ℝ → Residuals ℝ}
  {ng nh : ℕ} {opt : Options ℝ} {lagOpt : LagrangianOptions ℝ}

/-- **An outer iteration fails as its inner run does**, or as the check of the gradient does where the
inner run has ended. -/
theorem outerIteration_of_on (opt : Options ℝ) (lagOpt : LagrangianOptions ℝ)
    (hf : ∀ x, problem.objective x = pure (f x)) (hcon : ∀ x, problem.constraints x = pure (con x))
    (it : OuterIterate ℝ) (hfits : ∀ x, it.multipliers.Fits (con x)) (k : ℕ) (s : σ) :
    let out := (((outerIteration opt lagOpt k it).on problem).run s).1
    let inner := ((quasiNewton lagOpt.inner it.x).on
      (problem.augmented ⟨it.multipliers, lagOpt.rho⟩ con)).run s
    (∀ e, inner.1 = .error e → out = .error e) ∧ ∀ sol, inner.1 = .ok sol →
      let lam := it.multipliers.update lagOpt.rho (con sol.x)
      let plan := ((problem.gradient sol.x opt.fdStep).run inner.2).1
      let g := plan.answered (Lagrangian.valueAt ⟨lam, lagOpt.rho⟩ f con)
      out = (checkGradient sol.x g).map fun g =>
        ⟨sol, con sol.x, g, ⟨sol.x, f sol.x, lam⟩,
          ⟨k + 1, f sol.x, Vec.norm g, Vec.distance sol.x it.x, 1⟩⟩ := by
  intro out inner
  have hinner : ((innerRun lagOpt it).on problem).run s = inner :=
    congrArg (StateT.run · s) (on_under hcon (fun x => Lagrangian.check_of_fits (hfits x)) _)
  refine ⟨fun e he => on_bind_of_error ((congrArg Prod.fst hinner).trans he), fun sol hsol => ?_⟩
  intro lam plan g
  have hfits' : ∀ x, lam.Fits (con x) := fun x => (hfits sol.x).update _ (hfits x)
  have hgradient : (((under ⟨lam, lagOpt.rho⟩ (finiteGradient sol.x opt.fdStep)).on problem).run
      inner.2).1 = checkGradient sol.x g :=
    congrArg (fun c => (StateT.run c inner.2).1)
      (on_under_finiteGradient hf hcon hfits' sol.x opt.fdStep)
  change (((outerIteration opt lagOpt k it).on problem).run s).1 = _
  rw [outerIteration, on_bind_of_ok ((congrArg Prod.fst hinner).trans hsol), hinner,
    checkedConstraints, on_constraints_bind hcon (hfits sol.x).check]
  cases hg : checkGradient sol.x g with
  | error e => exact on_bind_of_error (hgradient.trans hg)
  | ok g =>
    rw [on_bind_of_ok (hgradient.trans hg), on_finiteObjective_bind hf]
    rfl

/-- **The first outer iteration is a penalty solve.** Let objective and constraints keep no state, with
`ng` inequality and `nh` equality residuals everywhere, and let one outer iteration be allowed. If the
quasi-Newton run on the penalty transform fails, the augmented Lagrangian method fails in the same
way. If it gives a solution, so does the method, at the same point, together with multipliers that
are `rho` times the residuals there, those of inequalities cut off at zero; unless the estimate of the
last gradient has the wrong length, which is then the failure. -/
theorem firstIteration_of_on (hf : ∀ x, problem.objective x = pure (f x))
    (hcon : ∀ x, problem.constraints x = pure (con x)) (hineq : ∀ x, (con x).ineq.length = ng)
    (heq : ∀ x, (con x).eq.length = nh) (hopt : opt.fault? = none) (hlag : lagOpt.fault? = none)
    (honce : opt.maxIt = 1) (x₀ : Vec ℝ) (s : σ) :
    let out := (((augmentedLagrangian opt lagOpt x₀).on problem).run s).1
    let inner :=
      ((quasiNewton lagOpt.inner x₀).on (problem.penalized lagOpt.rho).unmonitored).run s
    (∀ e, inner.1 = .error e → out = .error e) ∧ ∀ sol, inner.1 = .ok sol →
      let lam : Multipliers ℝ :=
        ⟨(con sol.x).ineq.map fun g => max 0 (lagOpt.rho * g),
          (con sol.x).eq.map fun h => lagOpt.rho * h⟩
      let plan := ((problem.gradient sol.x opt.fdStep).run inner.2).1
      let g := plan.answered (Lagrangian.valueAt ⟨lam, lagOpt.rho⟩ f con)
      (g.length = sol.x.length → out = .ok (⟨sol.x, f sol.x, .maxIterations, 1⟩, lam)) ∧
      (g.length ≠ sol.x.length →
        out = .error (.dimensionMismatch .gradient sol.x.length g.length)) := by
  intro out inner
  have hopt : opt.validate = .ok () := Options.validate_eq_ok_iff.mpr hopt
  have hlagOpt : lagOpt.validate = .ok () := by rw [LagrangianOptions.validate, hlag]
  by_cases hx₀ : x₀ = []
  · -- without a coordinate neither of the two starts
    have hinner : lagOpt.inner.validate = .ok () :=
      Options.validate_eq_ok_iff.mpr (LagrangianOptions.fault?_inner hlag)
    have hrun : quasiNewton lagOpt.inner x₀ = throw .emptyDesignVector :=
      (minimize_of_valid hinner _ x₀).trans (if_pos hx₀)
    have hmethod : augmentedLagrangian opt lagOpt x₀ = throw .emptyDesignVector := by
      rw [augmentedLagrangian_of_valid hopt, hlagOpt, if_pos hx₀]
      rfl
    have hfail : out = .error .emptyDesignVector ∧ inner.1 = .error .emptyDesignVector := by
      simp only [out, inner, hrun, hmethod]
      exact ⟨rfl, rfl⟩
    rw [hfail.1, hfail.2]
    constructor
    · intro e he
      cases he
      rfl
    · intro sol hsol
      cases hsol
  · have hfits : ∀ x, (Multipliers.zeros ng nh).Fits (con x) := fun x =>
      ⟨(hineq x).trans List.length_replicate.symm, (heq x).trans List.length_replicate.symm⟩
    have hout : out = (((outerIteration opt lagOpt 0 ⟨x₀, f x₀, .zeros ng nh⟩ >>= fun i =>
        outerFinish i .maxIterations).on problem).run s).1 := by
      simp only [out]
      rw [on_augmentedLagrangian hf hcon hineq heq hopt hlagOpt hx₀, honce]
      rfl
    obtain ⟨herror, hok⟩ :=
      outerIteration_of_on opt lagOpt hf hcon ⟨x₀, f x₀, .zeros ng nh⟩ hfits 0 s
    rw [Callbacks.augmented_zeros hcon] at herror hok
    refine ⟨fun e he => hout.trans (on_bind_of_error (herror e he)), fun sol hsol => ?_⟩
    intro lam plan g
    have hiteration := hok sol hsol
    dsimp only at hiteration
    rw [Multipliers.update_zeros (hfits sol.x)] at hiteration
    change _ = (checkGradient sol.x g).map _ at hiteration
    constructor
    · intro hlen
      have hg : checkGradient sol.x g = .ok g :=
        checkGradient_eq_ok_iff.mpr ⟨hlen, allFinite_real g, rfl⟩
      rw [hg] at hiteration
      rw [hout, on_bind_of_ok hiteration]
      rfl
    · intro hlen
      rw [checkGradient, if_pos hlen] at hiteration
      exact hout.trans (on_bind_of_error hiteration)

/-- The point of the half-plane `a ≥ 1` and the line `b = 1` that is nearest to the origin, looked for
from `[3, 1]` with central differences. The estimator counts its calls. -/
theorem firstIteration_of_on_nearest :
    let f : Vec ℝ → ℝ := fun y => Vec.dot y y
    let con : Vec ℝ → Residuals ℝ := fun y => ⟨[1 - y.getD 0 0], [y.getD 1 0 - 1]⟩
    let problem : Callbacks (StateM ℕ) ℝ := {
      objective := fun x => pure (f x)
      constraints := fun x => pure (con x)
      gradient := fun x h => do
        modify (· + 1)
        pure (.central x h)
      update := fun b _ _ => pure (.ok b.cleared)
      progress := fun _ => pure ()
      note := fun _ => pure () }
    let opt : Options ℝ := { Options.default with maxIt := 1 }
    let out := (((augmentedLagrangian opt .default [3, 1]).on problem).run 0).1
    let inner := (((quasiNewton .default [3, 1]).on (problem.penalized 1).unmonitored).run 0).1
    ∃ sol, inner = .ok sol ∧ out = .ok (⟨sol.x, f sol.x, .maxIterations, 1⟩,
      ⟨[max 0 (1 * (1 - sol.x.getD 0 0))], [1 * (sol.x.getD 1 0 - 1)]⟩) := by
  intro f con problem opt out inner
  let p : Callbacks Id ℝ := {
    objective := penaltyAt f con 1
    constraints := con
    gradient := fun x h => Plan.central x h
    update := fun b _ _ => Except.ok b.cleared
    progress := fun _ => ()
    note := fun _ => () }
  have hp : (problem.penalized 1).unmonitored.Agrees p := fun q _ => by cases q <;> rfl
  have hharmless : p.Harmless := {
    gradient := fun _ _ => Or.inr rfl
    change := fun b dx dg db h => by
      cases h
      exact b.sameShape_cleared
    refusal := fun _ _ _ _ => nofun }
  have hinner : (Options.default : Options ℝ).fault? = none :=
    Options.fault?_eq_none_iff.mpr (Options.usable_default (show 200 ≠ 0 by decide))
  have hopt : opt.fault? = none :=
    Options.fault?_eq_none_iff.mpr (Options.usable_default one_ne_zero)
  have hlag : (LagrangianOptions.default : LagrangianOptions ℝ).fault? = none := by
    rw [LagrangianOptions.fault?, if_neg (not_not.mpr ⟨one_pos, rfl⟩)]
    exact hinner
  obtain ⟨sol, hsol, -⟩ := Gives.quasiNewton hharmless hinner (List.cons_ne_nil 3 [1]) _ _
    (ends_recordOn _ 0) hp.recordOn
  have hrecord := congrArg (fun c => (StateT.run c 0).1) (Dialogue.fst_record
    (problem.penalized 1).unmonitored.answer (quasiNewton .default [3, 1]).run)
  have hsolved : inner = .ok sol := hrecord.symm.trans hsol
  obtain ⟨-, hok⟩ := firstIteration_of_on
    (fun x => (rfl : problem.objective x = pure (f x)))
    (fun x => (rfl : problem.constraints x = pure (con x))) (fun _ => rfl) (fun _ => rfl) hopt hlag
    rfl [3, 1] 0
  obtain ⟨u, hu, -⟩ := Dialogue.exists_ends_answered
    (Lagrangian.valueAt ⟨⟨[max 0 (1 * (1 - sol.x.getD 0 0))], [1 * (sol.x.getD 1 0 - 1)]⟩, 1⟩ f con)
    (Plan.central sol.x opt.fdStep)
  exact ⟨sol, hsolved, (hok sol hsolved).1 (Plan.length_of_ends_central hu)⟩

end Run

end Optimum

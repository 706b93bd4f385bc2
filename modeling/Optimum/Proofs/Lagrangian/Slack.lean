import Optimum.Proofs.Descent.Decrease
import Optimum.Proofs.Lagrangian.Success
import Optimum.Proofs.Omission

/-!
# Constraints that never bind

If no constraint is ever violated, the multipliers stay at zero, and in exact arithmetic every
augmented Lagrangian is the objective itself, at all points. So the augmented Lagrangian method does
what it does without constraints: it repeats quasi-Newton runs on the objective, each from where the
last one ended and with a fresh approximation, until an exit test is met.

## What is proved

* `Run.repeatedQuasiNewton` is that iteration, written down without constraints and multipliers.
* `Run.reducesTo_unobserved`: a run under a Lagrangian with zero multipliers is the run itself,
  apart from the evaluations of the constraints.
* `Run.slack_of_recordOn`: the augmented Lagrangian method, with constraints that never bind and
  without constraints, is the repeated quasi-Newton method.
-/

namespace Optimum

open Scalar

/-! ### Repeated quasi-Newton runs -/

section Repetition

variable {α : Type}

/-- Passes all questions on, except that the monitor is told nothing. -/
def Run.quietly : (q : Question α) → Dialogue (Answer α) (Answer α q)
  | .progress _ => pure ()
  | .objective x => Dialogue.query (A := Answer α) (.objective x)
  | .constraints x => Dialogue.query (A := Answer α) (.constraints x)
  | .gradient x h => Dialogue.query (A := Answer α) (.gradient x h)
  | .update b dx dg => Dialogue.query (A := Answer α) (.update b dx dg)
  | .note n => Dialogue.query (A := Answer α) (.note n)

/-- A run of which the monitor is told nothing. -/
def Run.unobserved {β : Type} (run : Run α β) : Run α β := ExceptT.mk (run.run.run quietly)

variable [Scalar α]

/-- What a repetition did. -/
structure Repetition (α : Type) where
  /-- The point where the quasi-Newton run ended. -/
  x : Vec α
  /-- The objective there. -/
  f : α
  /-- What the monitor was told. -/
  progress : Progress α

namespace Run

/-- Quasi-Newton runs, each from where the last one ended, until an exit test is met. They are tested
and reported like outer iterations without a violation. -/
def repetition (opt : Options α) (lagOpt : LagrangianOptions α) :
    Loop α (Vec α × α) (Repetition α) (Solution α) where
  iteration k last := do
    let inner ← unobserved (quasiNewton lagOpt.inner last.1)
    let g ← finiteGradient inner.x opt.fdStep
    let f ← finiteObjective inner.x
    let p : Progress α := ⟨k + 1, f, Vec.norm g, Vec.distance inner.x last.1, 1⟩
    note (.outer p.iteration f 0 p.gradNorm inner.exitFlag inner.iterations)
    progress p
    pure ⟨inner.x, f, p⟩
  progress i := i.progress
  change last i := magnitude (i.f - last.2)
  carry _ i := pure (i.x, i.f)
  farewell i flag := .outerExit flag i.progress.iteration
  result i flag := ⟨i.x, i.f, flag, i.progress.iteration⟩

/-- Minimises the objective from `x₀` by repeated quasi-Newton runs. -/
def repeatedQuasiNewton (opt : Options α) (lagOpt : LagrangianOptions α) (x₀ : Vec α) :
    Run α (Solution α) := do
  opt.validate
  lagOpt.validate
  if x₀.isEmpty then throw .emptyDesignVector
  let f ← finiteObjective x₀
  (repetition opt lagOpt).run opt (opt.maxIt - 1) 0 (x₀, f)

end Run

end Repetition

/-! ### Constraints left out -/

/-- An evaluation of the constraints. -/
def Question.isConstraints {α : Type} : Question α → Bool
  | .constraints _ => true
  | _ => false

/-- Evaluations of the constraints are left out. They are considered where `ng` inequalities and `nh`
equalities are met. -/
def withoutSlack (ng nh : ℕ) : Omission (Answer ℝ) where
  omits := Question.isConstraints
  Admits
    | .constraints _, r => r.Feasible ∧ (Multipliers.zeros ng nh).Fits r
    | _, _ => True

variable {ng nh : ℕ} {r : Residuals ℝ} {rho : ℝ}

/-- Where all constraints are met, zero multipliers are complementary. -/
theorem Residuals.Feasible.complementary_zeros (h : r.Feasible) :
    (Multipliers.zeros ng nh).Complementary r where
  nonneg mu hmu := (List.eq_of_mem_replicate hmu).ge
  feasible := h
  slack p hp := by
    rw [List.eq_of_mem_replicate (List.of_mem_zip hp).1, zero_mul]

/-- No constraint is violated there. -/
theorem Residuals.Feasible.maxViolation (h : r.Feasible) : r.maxViolation = 0 := by
  have hfold : ∀ {β : Type} {step : ℝ → β → ℝ} {l : List β}, (∀ v ∈ l, step 0 v = 0) →
      l.foldl step 0 = 0 := by
    intro β step l hl
    induction l with
    | nil => rfl
    | cons v l ih =>
      obtain ⟨hv, hl⟩ := List.forall_mem_cons.mp hl
      rw [List.foldl_cons, hv, ih hl]
  have heq : Vec.normInf r.eq = 0 := hfold fun e he => by simp [h.eq e he]
  rw [Residuals.maxViolation, heq]
  exact hfold fun g hg => by simp [h.ineq g hg]

/-- A penalty parameter in use is positive. -/
theorem LagrangianOptions.rho_pos_of_validate {lagOpt : LagrangianOptions ℝ}
    (h : lagOpt.validate = .ok ()) : 0 < lagOpt.rho := by
  by_contra hrho
  simp [validate, fault?, hrho] at h

namespace Run

variable {β γ : Type}

/-! ### Inner runs -/

/-- **A run under a Lagrangian with zero multipliers is the run itself**, with the evaluations of the
constraints left out, and unobserved. -/
theorem reducesTo_unobserved {run : Run ℝ β} (h : AsksOnly Question.OfDescent run) :
    ReducesTo (withoutSlack ng nh) Eq (under ⟨.zeros ng nh, rho⟩ run) (unobserved run) := by
  have hdialogue : ∀ d : Dialogue (Answer ℝ) (Except (Failure ℝ) β),
      (∀ t r, d.Ends t r → ∀ x ∈ t, x.question.OfDescent) →
      (withoutSlack ng nh).Reduces (fun p r => p = (r, none))
        ((d.run (Lagrangian.relay ⟨.zeros ng nh, rho⟩)).run none) (d.run quietly) := by
    intro d
    induction d with
    | done r => exact fun _ => .done rfl
    | ask q next ih =>
      intro hd
      obtain ⟨hq, hnext⟩ :=
        Dialogue.forall_ends_ask (P := Question.OfDescent) Question.nonempty_answer hd
      rw [Dialogue.run_ask, StateT.run_bind]
      cases q with
      | objective x =>
        rw [Lagrangian.relay, Lagrangian.run_value, bind_assoc, Dialogue.query_bind]
        refine .leaves rfl fun r hr => ?_
        obtain ⟨hfeasible, hfits⟩ : r.Feasible ∧ (Multipliers.zeros ng nh).Fits r := hr
        have hcheck : Lagrangian.check ⟨.zeros ng nh, rho⟩ r = .ok () :=
          Lagrangian.check_of_fits hfits
        have hvalue : ∀ v, Lagrangian.combine ⟨.zeros ng nh, rho⟩ v r = v :=
          Lagrangian.combine_eq hfeasible.complementary_zeros
        simp only [hcheck, hvalue]
        exact .asks rfl fun v => ih v (hnext v)
      | progress p => exact ih () (hnext ())
      | constraints x => exact absurd hq id
      | gradient x h => exact .asks rfl fun a => ih a (hnext a)
      | update b dx dg => exact .asks rfl fun a => ih a (hnext a)
      | note n => exact .asks rfl fun a => ih a (hnext a)
  have hresult : ∀ (p : Except (Failure ℝ) β × Kept ℝ) (r : Except (Failure ℝ) β), p = (r, none) →
      (withoutSlack ng nh).Reduces (Corresponds Eq) (pure (p.1.mapError p.2.getD)) (pure r) := by
    rintro p r rfl
    cases r with
    | error e => exact .done (.error e)
    | ok b => exact .done (.ok rfl)
  have hrun := (hdialogue run.run h).bind hresult
  rwa [bind_pure] at hrun

/-- A run that does not tell the monitor anyway. -/
theorem unobserved_eq_self {α : Type} [Scalar α] {run : Run α β}
    (h : AsksOnly Question.Evaluating run) : unobserved run = run := by
  have hdialogue : ∀ d : Dialogue (Answer α) (Except (Failure α) β),
      (∀ t r, d.Ends t r → ∀ x ∈ t, x.question.Evaluating) → d.run quietly = d := by
    intro d
    induction d with
    | done r => exact fun _ => rfl
    | ask q next ih =>
      intro hd
      obtain ⟨hq, hnext⟩ :=
        Dialogue.forall_ends_ask (P := Question.Evaluating) Question.nonempty_answer hd
      have hrest : (fun a => (next a).run quietly) = next := funext fun a => ih a (hnext a)
      rw [Dialogue.run_ask, hrest]
      cases q with
      | progress p => exact absurd hq id
      | _ => rfl
  exact hdialogue run.run h

/-! ### Outer iterations -/

variable {opt : Options ℝ} {lagOpt : LagrangianOptions ℝ}

/-- An evaluation of the constraints that is left out. Its residuals pass the check. -/
theorem reducesTo_checkedConstraints {x : Vec ℝ} {f : Residuals ℝ → Run ℝ β} {run : Run ℝ γ}
    {R : β → γ → Prop} (hf : ∀ r : Residuals ℝ, r.Feasible → (Multipliers.zeros ng nh).Fits r →
      ReducesTo (withoutSlack ng nh) R (f r) run) :
    ReducesTo (withoutSlack ng nh) R (checkedConstraints x (.zeros ng nh) >>= f) run := by
  rw [checkedConstraints, bind_assoc]
  refine .leaves rfl fun r hr => ?_
  obtain ⟨hfeasible, hfits⟩ : r.Feasible ∧ (Multipliers.zeros ng nh).Fits r := hr
  rw [hfits.check]
  exact hf r hfeasible hfits

/-- An estimate of the gradient of a Lagrangian is one of the objective. -/
theorem reducesTo_gradient (x : Vec ℝ) (h : ℝ) :
    ReducesTo (withoutSlack ng nh) Eq (under ⟨.zeros ng nh, rho⟩ (finiteGradient x h))
      (finiteGradient x h) := by
  have hasks := AsksOnly.finiteGradient x h
  have hgradient : ReducesTo (withoutSlack ng nh) Eq
      (under ⟨.zeros ng nh, rho⟩ (finiteGradient x h)) (unobserved (finiteGradient x h)) :=
    reducesTo_unobserved (hasks.mono fun _ => Question.Evaluating.ofDescent)
  rwa [unobserved_eq_self hasks] at hgradient

theorem reducesTo_finiteObjective (x : Vec ℝ) :
    ReducesTo (withoutSlack ng nh) Eq (finiteObjective x) (finiteObjective x) := by
  refine (ReducesTo.self ((AsksOnly.finiteObjective x).mono fun q hq => ?_)).mono fun v v' hv =>
    hv.1.symm
  cases q with
  | constraints x => exact absurd hq id
  | _ => rfl

/-- The residuals at the starting point are left out too. They give the numbers of the multipliers. -/
theorem reducesTo_initialConstraints {x : Vec ℝ} {f : Residuals ℝ → Run ℝ β} {run : Run ℝ γ}
    {R : β → γ → Prop} (hf : ∀ r : Residuals ℝ, (Multipliers.zeros ng nh).Fits r →
      ReducesTo (withoutSlack ng nh) R (f r) run) :
    ReducesTo (withoutSlack ng nh) R (initialConstraints x >>= f) run := by
  rw [initialConstraints, bind_assoc]
  refine .leaves rfl fun r hr => ?_
  obtain ⟨-, hfits⟩ : r.Feasible ∧ (Multipliers.zeros ng nh).Fits r := hr
  have hcheck : Residuals.checkFinite r = .ok () := by simp [Residuals.checkFinite]
  rw [hcheck]
  exact hf r hfits

/-- **An outer iteration from zero multipliers is a repetition**, and leaves them at zero. -/
theorem reducesTo_outerIteration (hrho : 0 < lagOpt.rho) (k : ℕ) (x : Vec ℝ) (f : ℝ) :
    ReducesTo (withoutSlack ng nh)
      (fun i j => i.next = ⟨j.x, j.f, .zeros ng nh⟩ ∧ i.progress = j.progress)
      (outerIteration opt lagOpt k ⟨x, f, .zeros ng nh⟩)
      ((repetition opt lagOpt).iteration k (x, f)) := by
  have hinner : AsksOnly Question.OfDescent (quasiNewton lagOpt.inner x) := .solve .quasiNewton _ _
  refine ReducesTo.bind (reducesTo_unobserved hinner) fun inner inner' hinner => ?_
  subst hinner
  refine reducesTo_checkedConstraints fun r hr hfits => ?_
  have hupdate : (Multipliers.zeros ng nh).update lagOpt.rho r = .zeros ng nh :=
    (Multipliers.update_eq_self_iff hrho hfits).mpr hr.complementary_zeros
  simp only [hupdate, hr.maxViolation]
  refine ReducesTo.bind (reducesTo_gradient inner.x opt.fdStep) fun g g' hg => ?_
  subst hg
  refine ReducesTo.bind (reducesTo_finiteObjective inner.x) fun v v' hv => ?_
  subst hv
  refine ReducesTo.bind (.note rfl) fun _ _ _ => ?_
  refine ReducesTo.bind (.progress rfl) fun _ _ _ => ?_
  exact .pure ⟨rfl, rfl⟩

/-- **The outer loop from zero multipliers repeats.** -/
theorem reduces_outerLoop (hrho : 0 < lagOpt.rho) :
    (outerLoop opt lagOpt).Related (reducing (withoutSlack ng nh)) (repetition opt lagOpt)
      (fun it last => it = ⟨last.1, last.2, .zeros ng nh⟩)
      (fun _ _ i j => i.next = ⟨j.x, j.f, .zeros ng nh⟩ ∧ i.progress = j.progress)
      (fun b sol => b = (sol, .zeros ng nh)) where
  iteration k it last hit := by
    rw [hit]
    exact reducesTo_outerIteration hrho k last.1 last.2
  met? opt it last i j hit hi := by
    rw [Loop.met?, Loop.met?]
    simp [outerLoop, repetition, hit, hi.1, hi.2]
  carry it last i j _ hi := .pure hi.1
  finish it last i j flag hi := by
    have hfarewell : (outerLoop opt lagOpt).farewell i flag =
        (repetition opt lagOpt).farewell j flag := by
      simp [outerLoop, repetition, hi.2]
    rw [Loop.finish, Loop.finish, hfarewell]
    refine ReducesTo.bind (.note rfl) fun _ _ _ => .pure ?_
    simp [outerLoop, repetition, hi.1, hi.2]

/-- **The augmented Lagrangian method reduces to repeated quasi-Newton runs.** -/
theorem reducesTo_repeatedQuasiNewton (opt : Options ℝ) (lagOpt : LagrangianOptions ℝ)
    (x₀ : Vec ℝ) :
    ReducesTo (withoutSlack ng nh) (fun b sol => b = (sol, .zeros ng nh))
      (augmentedLagrangian opt lagOpt x₀) (repeatedQuasiNewton opt lagOpt x₀) := by
  refine ReducesTo.check fun _ _ => ReducesTo.check fun _ hvalid => ?_
  have hrho := LagrangianOptions.rho_pos_of_validate hvalid
  cases x₀ with
  | nil => exact .throw _
  | cons a x =>
    refine reducesTo_initialConstraints fun r hfits => ?_
    rw [hfits.ineq, hfits.eq]
    refine ReducesTo.bind (reducesTo_finiteObjective (a :: x)) fun f f' hf => ?_
    subst hf
    rw [outerDescend_eq_run]
    simp only [Multipliers.zeros, List.length_replicate]
    exact (reduces_outerLoop hrho).run opt (opt.maxIt - 1) 0 rfl

/-! ### Runs on problems -/

/-- Without the evaluations of the constraints, those of the objective remain. -/
theorem evaluations_filter (t : Transcript ℝ) :
    Transcript.evaluations (t.filter fun x => !x.question.isConstraints) = t.evaluations := by
  unfold Transcript.evaluations
  rw [List.filterMap_filter]
  refine List.filterMap_congr fun x _ => ?_
  obtain ⟨q, a⟩ := x
  cases q <;> rfl

/-- A problem whose constraints keep no state and never bind, and one that differs from it in nothing
but the constraints. -/
theorem slack_of_constraints {σ : Type} {problem problem' : Callbacks (StateM σ) ℝ}
    {con : Vec ℝ → Residuals ℝ} (hcon : ∀ x, problem.constraints x = pure (con x))
    (hfeasible : ∀ x, (con x).Feasible) (hineq : ∀ x, (con x).ineq.length = ng)
    (heq : ∀ x, (con x).eq.length = nh)
    (hsame : ∀ q : Question ℝ, q.isConstraints = false → problem.answer q = problem'.answer q)
    (opt : Options ℝ) (lagOpt : LagrangianOptions ℝ) (x₀ : Vec ℝ) (s : σ) :
    let out := (((augmentedLagrangian opt lagOpt x₀).recordOn problem).run s).1
    let plain := (((repeatedQuasiNewton opt lagOpt x₀).recordOn problem').run s).1
    out.1 = plain.1.map (fun sol => (sol, .zeros ng nh)) ∧
      plain.2 = out.2.filter fun x => !x.question.isConstraints := by
  intro out plain
  have hfits : ∀ x, (Multipliers.zeros ng nh).Fits (con x) := fun x =>
    ⟨by simp [Multipliers.zeros, hineq], by simp [Multipliers.zeros, heq]⟩
  have homits : ∀ (q : Question ℝ) (s s' : σ), (withoutSlack ng nh).omits q = true → s = s' →
      (withoutSlack ng nh).Admits q ((problem.answer q).run s).1 ∧
        ((problem.answer q).run s).2 = s' := by
    rintro q s _ hq rfl
    cases q with
    | constraints x =>
      change (withoutSlack ng nh).Admits (.constraints x) ((problem.constraints x).run s).1 ∧
        ((problem.constraints x).run s).2 = s
      rw [hcon]
      exact ⟨⟨hfeasible x, hfits x⟩, rfl⟩
    | _ => cases hq
  have hasks : ∀ (q : Question ℝ) (s s' : σ), (withoutSlack ng nh).omits q = false → s = s' →
      ((problem.answer q).run s).1 = ((problem'.answer q).run s').1 ∧
        ((problem.answer q).run s).2 = ((problem'.answer q).run s').2 := by
    rintro q s _ hq rfl
    rw [hsame q hq]
    exact ⟨rfl, rfl⟩
  obtain ⟨hresult, hcalls⟩ := Omission.Reduces.record homits hasks
    (reducesTo_repeatedQuasiNewton opt lagOpt x₀) (Eq.refl s)
  exact ⟨Corresponds.eq_map hresult, hcalls⟩

/-- **Constraints that never bind do not change the answer**, in exact arithmetic. If the constraints
keep no state, and are met everywhere, by `ng` inequalities and `nh` equalities, the augmented
Lagrangian method gives the same solution, or fails with the same failure, as without constraints,
and so does the repeated quasi-Newton method. The multipliers stay at zero. All calls other than of
the constraints are the same, among them the evaluations of the objective. -/
theorem slack_of_recordOn {σ : Type} {problem : Callbacks (StateM σ) ℝ} {con : Vec ℝ → Residuals ℝ}
    (hcon : ∀ x, problem.constraints x = pure (con x)) (hfeasible : ∀ x, (con x).Feasible)
    (hineq : ∀ x, (con x).ineq.length = ng) (heq : ∀ x, (con x).eq.length = nh) (opt : Options ℝ)
    (lagOpt : LagrangianOptions ℝ) (x₀ : Vec ℝ) (s : σ) :
    let free : Callbacks (StateM σ) ℝ := { problem with constraints := fun _ => pure ⟨[], []⟩ }
    let out := (((augmentedLagrangian opt lagOpt x₀).recordOn problem).run s).1
    let out' := (((augmentedLagrangian opt lagOpt x₀).recordOn free).run s).1
    let plain := (((repeatedQuasiNewton opt lagOpt x₀).recordOn problem).run s).1
    (out.1 = plain.1.map (fun sol => (sol, .zeros ng nh)) ∧
      out'.1 = plain.1.map (fun sol => (sol, .zeros 0 0))) ∧
    (out.2.filter (fun x => !x.question.isConstraints) = plain.2 ∧
      out'.2.filter (fun x => !x.question.isConstraints) = plain.2) ∧
    out.2.evaluations = plain.2.evaluations ∧ out'.2.evaluations = plain.2.evaluations := by
  intro free out out' plain
  have hfree : ∀ q : Question ℝ, q.isConstraints = false → free.answer q = problem.answer q := by
    intro q hq
    cases q with
    | constraints x => cases hq
    | _ => rfl
  obtain ⟨hresult, hcalls⟩ :=
    slack_of_constraints hcon hfeasible hineq heq (fun _ _ => rfl) opt lagOpt x₀ s
  have hnone : ∀ x, free.constraints x = pure ⟨[], []⟩ := fun _ => rfl
  obtain ⟨hresult', hcalls'⟩ := slack_of_constraints hnone (fun _ => ⟨nofun, nofun⟩)
    (fun _ => rfl) (fun _ => rfl) hfree opt lagOpt x₀ s
  refine ⟨⟨hresult, hresult'⟩, ⟨hcalls.symm, hcalls'.symm⟩, ?_, ?_⟩
  · rw [hcalls, evaluations_filter]
  · rw [hcalls', evaluations_filter]

/-- A sum of squares `v`, under the constraints `-v ≤ 0` and `0 = 0`. -/
theorem slack_of_recordOn_sumOfSquares :
    let p : Callbacks Id ℝ := {
      objective := fun x => pure (Vec.dot x x)
      constraints := fun x => pure ⟨[-Vec.dot x x], [0]⟩
      gradient := fun x h => pure (.central x h)
      update := fun b _ _ => pure (.ok b.cleared)
      progress := fun _ => pure ()
      note := fun _ => pure () }
    let problem : Callbacks (StateM Unit) ℝ := {
      objective := fun x => pure (p.objective x)
      constraints := fun x => pure (p.constraints x)
      gradient := fun x h => pure (p.gradient x h)
      update := fun b dx dg => pure (p.update b dx dg)
      progress := fun _ => pure ()
      note := fun _ => pure () }
    let out := (((augmentedLagrangian .default .default [1]).recordOn problem).run ()).1
    let plain := (((repeatedQuasiNewton .default .default [1]).recordOn problem).run ()).1
    ∃ sol, plain.1 = .ok sol ∧ out.1 = .ok (sol, ⟨[0], [0]⟩) ∧
      out.2.evaluations = plain.2.evaluations := by
  intro p problem out plain
  have hp : problem.Agrees p := fun q _ => by cases q <;> rfl
  have hsized : p.Sized 1 1 := ⟨fun _ => rfl, fun _ => rfl⟩
  have hharmless : p.Harmless := {
    gradient := fun _ _ => Or.inr rfl
    change := fun b dx dg db h => by
      cases h
      exact b.sameShape_cleared
    refusal := fun _ _ _ _ => nofun }
  have hopt : (Options.default : Options ℝ).fault? = none :=
    Options.fault?_eq_none_iff.mpr (Options.usable_default (show 200 ≠ 0 by decide))
  have hlag : (LagrangianOptions.default : LagrangianOptions ℝ).fault? = none := by
    rw [LagrangianOptions.fault?, if_neg (not_not.mpr ⟨one_pos, rfl⟩)]
    exact hopt
  have hends : Ends (augmentedLagrangian .default .default [1]) out.2 out.1 := ends_recordOn _ ()
  obtain ⟨⟨sol, lam⟩, hsol, -⟩ := Gives.augmentedLagrangian hharmless hsized hopt hlag
    (List.cons_ne_nil 1 []) out.2 out.1 hends hp.recordOn
  have hfeasible : ∀ x, (p.constraints x).Feasible := by
    refine fun x => ⟨fun g hg => ?_, fun h hh => List.mem_singleton.mp hh⟩
    rw [List.mem_singleton.mp hg]
    exact neg_nonpos.mpr (Vec.dot_self_nonneg x)
  obtain ⟨⟨hresult, -⟩, -, hevaluations, -⟩ := slack_of_recordOn
    (fun x => (rfl : problem.constraints x = pure (p.constraints x))) hfeasible hsized.ineq
    hsized.eq .default .default [1] ()
  have hmap : plain.1.map (fun sol => (sol, .zeros 1 1)) = .ok (sol, lam) := hresult.symm.trans hsol
  cases hplain : plain.1 with
  | error e =>
    rw [hplain] at hmap
    cases hmap
  | ok sol' => exact ⟨sol', rfl, by rw [hresult, hplain]; rfl, hevaluations⟩

end Run

end Optimum

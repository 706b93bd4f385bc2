import Optimum.Proofs.Descent.Calls
import Optimum.Proofs.Lagrangian.Failures

/-!
# Runs on a penalty transform

A run on a penalty transform has a dialogue with the transform, which has one with the problem:
each evaluation of the objective becomes one of the constraints and one of the objective. Unlike an
augmented Lagrangian, the transform does not look at the residuals, and what it makes of one that
is not finite depends on the kind. A residual of an equality is squared, and one of an inequality
that is infinite upwards too; their squares are not finite, and the run fails. But a residual of an
inequality that is undefined, or infinite downwards, does not exceed zero, and is taken for one that
is met: no run can tell it from zero.

## What is proved

* `Run.on_penalized`: a run relayed to the problem is a run on the transform.
* `Residuals.not_showsNonFinite_of_violation` and `Residuals.violation_disregarded`: which residuals
  a violation shows, and which it does not.
* `Method.fails_of_recordOn_penalized`: a run that meets a residual of the first kind fails, with a
  value that is not finite.
-/

namespace Optimum

open Scalar

variable {α : Type} [Scalar α]

/-! ### Violations -/

namespace Residuals

/-- A residual that is not finite shows in the violation: one of an equality, or one of an
inequality that is not below zero. -/
def ShowsNonFinite (r : Residuals α) : Prop :=
  (∃ h ∈ r.eq, isFinite h = false) ∨ ∃ g ∈ r.ineq, 0 ≤ g ∧ isFinite g = false

instance (r : Residuals α) : Decidable r.ShowsNonFinite :=
  inferInstanceAs (Decidable (_ ∨ _))

/-- The violation is finite only if no residual that is not finite shows. -/
theorem not_showsNonFinite_of_violation [PassesNonFinite α] {r : Residuals α}
    (h : isFinite r.violation = true) : ¬ r.ShowsNonFinite := by
  obtain ⟨hineq, heq⟩ := PassesNonFinite.finite_of_add h
  have hineq := List.all_eq_true.mp (allFinite_of_total hineq)
  have heq := List.all_eq_true.mp (allFinite_of_total heq)
  have hsquare : ∀ a : α, isFinite (square a) = true → isFinite a = true := fun a ha =>
    (PassesNonFinite.finite_of_mul ha).1
  rintro (⟨e, he, hnot⟩ | ⟨g, hg, hnonneg, hnot⟩)
  · rw [hsquare e (heq _ (List.mem_map_of_mem he))] at hnot
    cases hnot
  · have hexcess : excess g = g := if_pos hnonneg
    have hfinite := hsquare _ (hineq _ (List.mem_map_of_mem hg))
    rw [hexcess, hnot] at hfinite
    cases hfinite

/-- The residuals with zero in place of those of inequalities that are not above or equal to it. -/
def disregarded (r : Residuals α) : Residuals α :=
  ⟨r.ineq.map fun g => if 0 ≤ g then g else 0, r.eq⟩

/-- The violation is the same as if an undefined inequality were met. -/
theorem violation_disregarded (hzero : ((0 : α) == 0) = true) (r : Residuals α) :
    r.disregarded.violation = r.violation := by
  have hexcess : ∀ g : α, excess (if 0 ≤ g then g else 0) = excess g := by
    intro g
    unfold excess larger
    split_ifs <;> rfl
  unfold violation disregarded
  rw [List.map_map]
  congr 2
  exact List.map_congr_left fun g _ => congrArg square (hexcess g)

end Residuals

/-- No run can tell such a residual from zero: the transforms are the same. -/
theorem penalty_disregarded {m : Type → Type} [Monad m] [LawfulMonad m]
    (hzero : ((0 : α) == 0) = true) (f : Vec α → m α) (con : Vec α → m (Residuals α)) (rho : α) :
    penalty f (fun x => Residuals.disregarded <$> con x) rho = penalty f con rho := by
  funext x
  simp only [penalty, map_eq_pure_bind, bind_assoc, pure_bind,
    Residuals.violation_disregarded hzero]

/-! ### Relaying -/

/-- The problem whose objective is the penalty transform of that of `problem` under its
constraints. -/
def Callbacks.penalized {m : Type → Type} [Monad m] (problem : Callbacks m α) (rho : α) :
    Callbacks m α :=
  { problem with objective := penalty problem.objective problem.constraints rho }

/-- Answers the questions of a run on a penalty transform by questions to the problem. -/
def penaltyRelay (rho : α) : (q : Question α) → Dialogue (Answer α) (Answer α q)
  | .objective x =>
    penalty (fun x => Dialogue.query (A := Answer α) (.objective x))
      (fun x => Dialogue.query (A := Answer α) (.constraints x)) rho x
  | q => Dialogue.query q

namespace Run

variable {β : Type} {rho : α} {t u : Transcript α}

/-- A run that takes the penalty transform for its objective. -/
def penalized (rho : α) (run : Run α β) : Run α β :=
  ExceptT.mk (Dialogue.run (penaltyRelay rho) run.run)

/-- **A run relayed to a problem is a run on the problem's penalty transform.** -/
theorem on_penalized {m : Type → Type} [Monad m] [LawfulMonad m] (run : Run α β)
    (problem : Callbacks m α) :
    (run.penalized rho).on problem = run.on (problem.penalized rho) := by
  have hanswer : (fun q => (penaltyRelay rho q).run problem.answer) =
      (problem.penalized rho).answer := by
    funext q
    cases q with
    | objective x =>
      simp [penaltyRelay, penalty, Callbacks.answer, Callbacks.penalized, Dialogue.query]
    | _ => exact bind_pure _
  change Dialogue.run problem.answer (Dialogue.run (penaltyRelay rho) run.run) = _
  rw [Dialogue.run_run, hanswer]
  rfl

/-- The exchanges of a run with a penalty transform, and those with the problem that they gave rise
to. -/
inductive Penalizes (rho : α) : Transcript α → Transcript α → Prop where
  /-- Nothing has been asked. -/
  | nil : Penalizes rho [] []
  /-- An evaluation. -/
  | evaluates {t u : Transcript α} {x : Vec α} {r : Residuals α} {v : α} : Penalizes rho t u →
      Penalizes rho (⟨.objective x, v + rho * r.violation⟩ :: t)
        (⟨.constraints x, r⟩ :: ⟨.objective x, v⟩ :: u)
  /-- Another question, which is passed on. -/
  | passes {t u : Transcript α} {x : Dialogue.Exchange (Answer α)} :
      (∀ y, x.question ≠ .objective y) → Penalizes rho t u → Penalizes rho (x :: t) (x :: u)

theorem Penalizes.append {t' u' : Transcript α} (h : Penalizes rho t u)
    (h' : Penalizes rho t' u') : Penalizes rho (t ++ t') (u ++ u') := by
  induction h with
  | nil => exact h'
  | evaluates _ ih => exact .evaluates ih
  | passes hx _ ih => exact .passes hx ih

/-- One question, relayed. -/
theorem penalizes_of_ends_relay {q : Question α} {a : Answer α q}
    (h : Dialogue.Ends (penaltyRelay rho q) u a) : Penalizes rho [⟨q, a⟩] u := by
  have passed : ∀ {a : Answer α q}, (∀ y, q ≠ .objective y) →
      Dialogue.Ends (Dialogue.query (A := Answer α) q) u a → Penalizes rho [⟨q, a⟩] u := by
    intro a hobjective h
    obtain rfl := Dialogue.ends_query_iff.mp h
    exact .passes hobjective .nil
  cases q with
  | objective x =>
    obtain ⟨r, u₁, rfl, h₁⟩ := Dialogue.ends_ask_iff.mp h
    obtain ⟨v, u₂, rfl, h₂⟩ := Dialogue.ends_ask_iff.mp h₁
    obtain ⟨rfl, rfl⟩ := Dialogue.ends_done_iff.mp h₂
    exact .evaluates .nil
  | constraints x => exact passed nofun h
  | gradient x step => exact passed nofun h
  | update b dx dg => exact passed nofun h
  | progress p => exact passed nofun h
  | note n => exact passed nofun h

/-- **A path of a relayed run comes from a path of the run.** -/
theorem ends_penalized {run : Run α β} {r : Except (Failure α) β}
    (h : Ends (run.penalized rho) u r) : ∃ t, Ends run t r ∧ Penalizes rho t u := by
  have relayed : ∀ {d : Dialogue (Answer α) (Except (Failure α) β)} {u : Transcript α},
      Dialogue.Ends (d.run (penaltyRelay rho)) u r → ∃ t, d.Ends t r ∧ Penalizes rho t u := by
    intro d
    induction d with
    | done c =>
      intro u h
      obtain ⟨rfl, rfl⟩ := Dialogue.ends_done_iff.mp h
      exact ⟨[], by simp, .nil⟩
    | ask q next ih =>
      intro u h
      rw [Dialogue.run_ask, Dialogue.ends_bind_iff] at h
      obtain ⟨u₁, a, u₂, h₁, h₂, rfl⟩ := h
      obtain ⟨t, ht, hpenalizes⟩ := ih a h₂
      exact ⟨⟨q, a⟩ :: t, .ask ht, (penalizes_of_ends_relay h₁).append hpenalizes⟩
  exact relayed h

/-- An exchange other than an evaluation is one with the problem. -/
theorem Penalizes.mem (h : Penalizes rho t u) {x : Dialogue.Exchange (Answer α)} (hx : x ∈ t)
    (hobjective : ∀ y, x.question ≠ .objective y) : x ∈ u := by
  induction h with
  | nil => exact hx
  | evaluates _ ih =>
    rcases List.mem_cons.mp hx with rfl | hx
    · exact absurd rfl (hobjective _)
    · exact List.mem_cons_of_mem _ (List.mem_cons_of_mem _ (ih hx))
  | passes _ _ ih =>
    rcases List.mem_cons.mp hx with rfl | hx
    · exact List.mem_cons_self
    · exact List.mem_cons_of_mem _ (ih hx)

/-- The value that an evaluation of the constraints went into. -/
theorem Penalizes.exists_value (h : Penalizes rho t u) (ht : t.Unconstrained) {x : Vec α}
    {r : Residuals α} (hx : ⟨.constraints x, r⟩ ∈ u) :
    ∃ v, ⟨.objective x, v + rho * r.violation⟩ ∈ t := by
  induction h with
  | nil => cases hx
  | @evaluates _ _ _ _ v _ ih =>
    obtain ⟨-, ht⟩ := List.forall_mem_cons.mp ht
    rcases List.mem_cons.mp hx with hx | hx
    · cases hx
      exact ⟨v, List.mem_cons_self⟩
    · rcases List.mem_cons.mp hx with hx | hx
      · cases hx
      · obtain ⟨v', hv'⟩ := ih ht hx
        exact ⟨v', List.mem_cons_of_mem _ hv'⟩
  | passes _ _ ih =>
    obtain ⟨hhead, ht⟩ := List.forall_mem_cons.mp ht
    rcases List.mem_cons.mp hx with rfl | hx
    · exact absurd rfl (hhead x)
    · obtain ⟨v, hv⟩ := ih ht hx
      exact ⟨v, List.mem_cons_of_mem _ hv⟩

end Run

/-! ### Calls at values that are not finite -/

variable {calls : List (Call α)} {p q : Phase α}

/-- **A call in which the objective has a value that is not finite offends**, also in an estimate,
if estimates are difference quotients at points with coordinates. -/
theorem Call.offence?_of_nonFinite [PassesNonFinite α]
    (h : Phase.Path (· ≠ []) .arriving calls q)
    (hplans : ∀ x step plan u g, Call.estimate x step plan u g ∈ calls →
      plan = .forward x step ∨ plan = .central x step)
    {c : Call α} (hc : c ∈ calls) {x : Vec α} {v : α} (hx : ⟨.objective x, v⟩ ∈ c.exchanges)
    (hv : isFinite v = false) : ∃ what, c.offence? = some (.nonFiniteValue what) := by
  cases c with
  | value y w =>
    cases List.mem_singleton.mp hx
    exact ⟨_, by rw [offence?, hv]; rfl⟩
  | trial y w =>
    cases List.mem_singleton.mp hx
    exact ⟨_, by rw [offence?, hv]; rfl⟩
  | estimate y step plan u g =>
    obtain ⟨hy, hu⟩ := h.estimate (fun y hy => by cases hy) hc
    have hexposes : plan.Exposes ∧ g.length = y.length := by
      rcases hplans y step plan u g hc with rfl | rfl
      · exact ⟨Plan.exposes_forward hy step, Plan.length_of_ends_forward hu⟩
      · exact ⟨Plan.exposes_central y step, Plan.length_of_ends_central hu⟩
    have hevaluated : ∃ e ∈ u, e.answer = v := by
      rcases List.mem_cons.mp hx with hx | hx
      · cases hx
      · obtain ⟨e, he, heq⟩ := List.mem_map.mp hx
        cases heq
        exact ⟨e, he, rfl⟩
    obtain ⟨e, he, rfl⟩ := hevaluated
    have hnot : allFinite g = false := by
      rw [Bool.eq_false_iff]
      intro hg
      rw [hexposes.1 u g hu hg e he] at hv
      cases hv
    exact ⟨.gradient, by simp [offence?, hexposes.2, hnot]⟩
  | correction b dx dg answer =>
    cases List.mem_singleton.mp hx
  | report p => cases List.mem_singleton.mp hx
  | remark m => cases List.mem_singleton.mp hx

/-! ### Runs of the methods -/

namespace Method

/-- A run that met a value of its objective that is not finite fails with such a value. -/
theorem fails_of_minimizes [PassesNonFinite α] {method : Method} {opt : Options α} {x₀ : Vec α}
    {t : Transcript α} {stages : List (Stage α (method.Memory α))}
    {r : Except (Failure α) (Solution α)}
    (h : Run.Minimizes (method.strategy x₀.length) (method.initial x₀.length) opt x₀ t stages r)
    (hplans : ∀ x step plan, ⟨.gradient x step, plan⟩ ∈ t →
      plan = .forward x step ∨ plan = .central x step)
    (hrows : t.KeepsRows) {x : Vec α} {v : α} (hx : ⟨.objective x, v⟩ ∈ t)
    (hv : isFinite v = false) : ∃ what, r = .error (.nonFiniteValue what) := by
  obtain ⟨hopt, hx₀⟩ : opt.fault? = none ∧ x₀ ≠ [] := by
    cases h with
    | unusable _ => cases hx
    | empty _ _ => cases hx
    | unstarted hopt hx₀ _ => exact ⟨hopt, hx₀⟩
    | descends hopt hx₀ _ _ => exact ⟨hopt, hx₀⟩
  have hline : ∀ τ ∈ stages, ∀ a, τ.it.x.along
      (Run.unitDirection (method.strategy x₀.length) τ.k τ.it τ.memory) a ≠ [] := by
    intro τ hτ a hnil
    have hlength := (h.full hrows τ hτ).length_along a
    rw [hnil] at hlength
    exact hx₀ (List.length_eq_zero_iff.mp hlength.symm)
  obtain ⟨m, ⟨calls, rfl, -, hcalls⟩, -⟩ :=
    accounts_of_minimizes (P := (· ≠ [])) hopt hx₀ hx₀ h hline
  obtain ⟨q, hpath⟩ := hcalls.exists_path
  obtain ⟨c, hc, hxc⟩ := List.mem_flatMap.mp hx
  obtain ⟨what, hwhat⟩ := Call.offence?_of_nonFinite hpath
    (fun y step plan u g hmem => hplans y step plan
      (List.mem_flatMap.mpr ⟨_, hmem, List.mem_cons_self⟩)) hc hxc hv
  cases hcalls with
  | ok _ hnone => cases (hnone c hc).symm.trans hwhat
  | error _ hbefore hlast =>
    rcases List.mem_append.mp hc with hc | hc
    · cases (hbefore c hc).symm.trans hwhat
    · cases List.mem_singleton.mp hc
      exact ⟨what, congrArg _ (Option.some.inj (hlast.symm.trans hwhat))⟩

/-- **A run on a penalty transform fails when a residual that is not finite shows**, whatever the
penalty parameter, if gradients are estimated by difference quotients and the update rule of a
quasi-Newton method leaves rows. The run relayed to the problem, whose transcript has the residuals, is
the one on the transform. A residual of an inequality that is undefined, or infinite downwards, does
not show: the transform is the same as if it were zero. -/
theorem fails_of_recordOn_penalized {σ : Type} {problem : Callbacks (StateM σ) Float}
    (hdiff : problem.Differences) (method : Method) (opt : Options Float) (x₀ : Vec Float)
    (rho : Float) (s : σ) :
    let out := ((((method.solve opt x₀).penalized rho).recordOn problem).run s).1
    out.1 = (((method.solve opt x₀).on (problem.penalized rho)).run s).1 ∧
    ((method = .quasiNewton → out.2.KeepsRows) →
      ∀ x r, (x, r) ∈ out.2.constraintEvaluations → r.ShowsNonFinite →
        ∃ what, out.1 = .error (.nonFiniteValue what)) ∧
    penalty problem.objective (fun x => Residuals.disregarded <$> problem.constraints x) rho =
      penalty problem.objective problem.constraints rho := by
  intro out
  refine ⟨?_, fun hrows x r hr hshows => ?_, penalty_disregarded (by decide) _ _ _⟩
  · have hrecord := Dialogue.fst_record problem.answer ((method.solve opt x₀).penalized rho).run
    rw [← Run.on_penalized, Run.on, ← hrecord]
    rfl
  · have hends : Run.Ends ((method.solve opt x₀).penalized rho) out.2 out.1 := Run.ends_recordOn _ s
    obtain ⟨t, ht, hpenalizes⟩ := Run.ends_penalized hends
    obtain ⟨v, hv⟩ := hpenalizes.exists_value (unconstrained_of_ends ht)
      (Transcript.mem_constraintEvaluations_iff.mp hr)
    have hrows' : t.KeepsRows := keepsRows_of_ends ht fun hm b dx dg db hdb =>
      hrows hm b dx dg db (hpenalizes.mem hdb nofun)
    rw [solve_eq] at ht
    obtain ⟨stages, hruns⟩ := Run.ends_minimize_iff.mp ht
    refine fails_of_minimizes hruns (fun y step plan hplan => ?_) hrows' hv ?_
    · obtain ⟨s', hs'⟩ := Run.answer_of_recordOn (hpenalizes.mem hplan nofun)
      rcases hdiff y step s' with hplan | hplan
      · exact Or.inl (hs'.symm.trans hplan)
      · exact Or.inr (hs'.symm.trans hplan)
    · rw [Bool.eq_false_iff]
      intro hfinite
      have hproduct := (PassesNonFinite.finite_of_add hfinite).2
      exact Residuals.not_showsNonFinite_of_violation
        (PassesNonFinite.finite_of_mul hproduct).2 hshows

/-- A sum of squares under constraints, with forward differences. -/
def sumOfSquaresUnder (con : Vec Float → Residuals Float) : Callbacks (StateM Unit) Float where
  objective x := pure (Vec.dot x x)
  constraints x := pure (con x)
  gradient x h := pure (.forward x h)
  update b _ _ := pure (.ok b.cleared)
  progress _ := pure ()
  note _ := pure ()

/-- An equality whose residual is undefined below `2.5`, which the line search from `3` gets to. -/
theorem fails_of_recordOn_penalized_root :
    let problem := sumOfSquaresUnder fun x => ⟨[], x.map fun xi => sqrt (xi - 2.5)⟩
    let opt : Options Float := { Options.default with lineMaxFev := 2 }
    let out := ((((steepestDescent.solve opt [3]).penalized 1).recordOn problem).run ()).1
    problem.Differences ∧
      ∃ what, (((steepestDescent.solve opt [3]).on (problem.penalized 1)).run ()).1 =
        .error (.nonFiniteValue what) ∧ out.1 = .error (.nonFiniteValue what) := by
  intro problem opt out
  have hdiff : problem.Differences := fun _ _ _ => Or.inl rfl
  obtain ⟨hon, hfails, -⟩ := fails_of_recordOn_penalized hdiff steepestDescent opt [3] 1 ()
  have hmet : ∃ p ∈ out.2.constraintEvaluations, p.2.ShowsNonFinite := by decide +kernel
  obtain ⟨⟨x, r⟩, hp, hr⟩ := hmet
  obtain ⟨what, hwhat⟩ := hfails nofun x r hp hr
  exact ⟨hdiff, what, hon.symm.trans hwhat, hwhat⟩

/-- An inequality whose residual is undefined everywhere, on which a run succeeds. -/
theorem succeeds_on_penalized_undefinedInequality :
    let problem := sumOfSquaresUnder fun _ => ⟨[undefined], []⟩
    let opt : Options Float := { Options.default with lineMaxFev := 2 }
    let out := ((((steepestDescent.solve opt [1]).penalized 1).recordOn problem).run ()).1
    opt.fault? = none ∧ problem.Differences ∧
      (∃ p ∈ out.2.constraintEvaluations, ∃ g ∈ p.2.ineq, isFinite g = false) ∧
      ∃ sol, (((steepestDescent.solve opt [1]).on (problem.penalized 1)).run ()).1 = .ok sol := by
  intro problem opt out
  refine ⟨by decide, fun _ _ _ => Or.inl rfl, by decide +kernel, ?_⟩
  exact Run.failure?_eq_none_iff.mp (by decide +kernel)

end Method

end Optimum

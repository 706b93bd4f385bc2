import Optimum.Proofs.Lagrangian.Coordinates
import Optimum.Proofs.Lagrangian.Faults

/-!
# How failures of the constraints are reported

The augmented Lagrangian method reports the first evaluation of the constraints that is not as it
should be, and reports it as itself, although the inner runs see nothing of it but an undefined
value of their objective. An inner run that fails gives way to the failure kept, and one that gives
a result has met finite values only, so that no failure was kept. It takes an estimate that does not
expose its values for a failure to be lost: forward differences at a point without coordinates, where
an update rule can lead that leaves an approximation without rows.

## What is proved

* `Reporting` is what a part of a run guarantees, with a rule for sequences (`Reporting.bind`) and
  one for runs under a Lagrangian (`Reporting.of_under`).
* `Reporting.of_outerIteration` is the step lemma, and `Reporting.of_outerDescend` follows from it
  by induction on the iterations left.
* `Run.firstFault_of_recordOn`: a call reports the first failure of the constraints, and reports
  one only if there is one; `Run.not_firstFault_of_recordOn_lateFault` is a run that loses a failure.
-/

namespace Optimum

open Scalar

variable {α : Type} [Scalar α]

/-! ### Outcomes that report failures -/

namespace Transcript

variable {β γ : Type} {ng nh : Nat} {t u : Transcript α} {r : Except (Failure α) β}

/-- An outcome reports what happened: the first failure of the constraints as itself, where estimates
expose values, and a failure of the constraints only if an evaluation has it, unless the update rule
failed with it. -/
structure Reports (ng nh : Nat) (t : Transcript α) (r : Except (Failure α) β) : Prop where
  /-- The first failure is the outcome. -/
  first : t.Exposes → ∀ e, t.firstFailure ng nh = some e → r = .error e
  /-- An outcome of this kind is the failure of an evaluation. -/
  only : ∀ e, r = .error e → e.OfConstraints →
    (∃ p ∈ t.constraintEvaluations, p.2.Fault ng nh e) ∨ t.RuleFails e

theorem Reports.error {e : Failure α} (h : t.Reports ng nh (.error e : Except (Failure α) β)) :
    t.Reports ng nh (.error e : Except (Failure α) γ) where
  first hexp e' he' := by
    cases h.first hexp e' he'
    rfl
  only e' he' := by
    cases he'
    exact h.only e rfl

theorem Reports.append {b : β} {r' : Except (Failure α) γ}
    (h : t.Reports ng nh (.ok b : Except (Failure α) β)) (h' : u.Reports ng nh r') :
    (t ++ u).Reports ng nh r' := by
  refine ⟨fun hexp e he => ?_, fun e hr he => ?_⟩
  · rw [exposes_append_iff] at hexp
    have hnone : t.firstFailure ng nh = none := by
      cases ht : t.firstFailure ng nh with
      | none => rfl
      | some e => cases h.first hexp.1 e ht
    rw [firstFailure_append, hnone, Option.none_or] at he
    exact h'.first hexp.2 e he
  · rcases h'.only e hr he with ⟨p, hp, hfault⟩ | ⟨b, dx, dg, hmem⟩
    · rw [constraintEvaluations_append]
      exact Or.inl ⟨p, List.mem_append_right _ hp, hfault⟩
    · exact Or.inr ⟨b, dx, dg, List.mem_append_right _ hmem⟩

/-- A single evaluation of the constraints, and the check of its residuals. -/
theorem Reports.of_check (x : Vec α) (a : Residuals α) :
    Reports ng nh [⟨.constraints x, a⟩] ((a.check ng nh).map fun _ => a) := by
  have hfirst : firstFailure ng nh [⟨.constraints x, a⟩] = a.failure? ng nh := by
    rw [firstFailure_constraints_cons, firstFailure_nil, Option.or_none]
  cases hcheck : a.check ng nh with
  | ok u =>
    refine ⟨fun _ e he => ?_, nofun⟩
    rw [hfirst, Residuals.failure?_eq_none_iff.mpr hcheck] at he
    cases he
  | error e =>
    rw [Residuals.failure?_eq_some_iff.mpr hcheck] at hfirst
    refine ⟨fun _ e' he' => ?_, fun e' he' _ => ?_⟩
    · cases hfirst.symm.trans he'
      rfl
    · cases he'
      exact Or.inl ⟨(x, a), List.mem_singleton_self _, Residuals.check_eq_error_iff.mp hcheck⟩

/-- A part that does not evaluate the constraints, and only fails with another failure. -/
theorem Reports.of_unconstrained (ht : t.Unconstrained)
    (hr : ∀ e, r = .error e → e.OfConstraints → t.RuleFails e) : t.Reports ng nh r where
  first _ e he := by
    rw [ht.firstFailure] at he
    cases he
  only e he hof := Or.inr (hr e he hof)

end Transcript

/-! ### Evaluations of the constraints -/

omit [Scalar α] in
/-- The constraints, evaluated and checked in some way. -/
theorem Run.ends_checked_iff {x : Vec α} {check : Residuals α → Except (Failure α) Unit}
    {t : Transcript α} {r : Except (Failure α) (Residuals α)} :
    Ends (do
      let a ← constraints x
      check a
      pure a) t r ↔ ∃ a, t = [⟨.constraints x, a⟩] ∧ r = (check a).map fun _ => a := by
  refine ends_query_bind_iff.trans (exists_congr fun a => ?_)
  cases hcheck : check a with
  | ok u =>
    constructor
    · intro ⟨t', ht, h⟩
      obtain ⟨rfl, rfl⟩ := ends_pure_iff.mp h
      exact ⟨ht, rfl⟩
    · intro ⟨ht, hr⟩
      exact ⟨[], ht, ends_pure_iff.mpr ⟨rfl, hr⟩⟩
  | error e =>
    constructor
    · intro ⟨t', ht, h⟩
      obtain ⟨rfl, rfl⟩ := ends_throw_iff.mp h
      exact ⟨ht, rfl⟩
    · intro ⟨ht, hr⟩
      exact ⟨[], ht, ends_throw_iff.mpr ⟨rfl, hr⟩⟩

/-- The residuals at the starting point can only fail to be finite, as their numbers are those of
the problem. -/
theorem Run.reports_of_ends_initialConstraints {x : Vec α} {t : Transcript α}
    {r : Except (Failure α) (Residuals α)}
    (hend : Ends (initialConstraints x) t r) :
    ∃ r₀, t = [⟨.constraints x, r₀⟩] ∧ t.Reports r₀.ineq.length r₀.eq.length r ∧
      ∀ a, r = .ok a → a = r₀ := by
  obtain ⟨r₀, rfl, hr⟩ := ends_checked_iff.mp hend
  have hreports : Transcript.Reports r₀.ineq.length r₀.eq.length [⟨.constraints x, r₀⟩]
      ((r₀.check r₀.ineq.length r₀.eq.length).map fun _ => r₀) := .of_check x r₀
  rw [Residuals.check_self, ← hr] at hreports
  refine ⟨r₀, rfl, hreports, fun a ha => ?_⟩
  rw [ha] at hr
  cases hcheck : r₀.checkFinite with
  | ok u =>
    rw [hcheck] at hr
    exact Except.ok.inj hr
  | error e =>
    rw [hcheck] at hr
    cases hr

/-! ### Parts of a run that report failures -/

/-- Every path of the run reports the failures of the constraints on it, and gives what `post`
says. -/
def Reporting {β : Type} (ng nh : Nat) (run : Run α β) (post : β → Prop) : Prop :=
  ∀ t r, Run.Ends run t r → t.Reports ng nh r ∧ ∀ b, r = .ok b → post b

namespace Reporting

variable {β γ : Type} {ng nh : Nat} {run : Run α β} {post : β → Prop}

/-- A sequence reports if its parts do. -/
theorem bind {f : β → Run α γ} {post' : γ → Prop} (h : Reporting ng nh run post)
    (hf : ∀ b, post b → Reporting ng nh (f b) post') : Reporting ng nh (run >>= f) post' := by
  intro t r hend
  rcases Run.ends_bind_iff.mp hend with ⟨e, h₁, rfl⟩ | ⟨t₁, b, t₂, h₁, h₂, rfl⟩
  · exact ⟨(h t _ h₁).1.error, nofun⟩
  · obtain ⟨hreports, hpost⟩ := h t₁ _ h₁
    obtain ⟨hreports', hpost'⟩ := hf b (hpost b rfl) t₂ r h₂
    exact ⟨hreports.append hreports', hpost'⟩

/-- A part that does not evaluate the constraints, and only fails with another failure. -/
theorem of_unconstrained (h : ∀ t r, Run.Ends run t r → t.Unconstrained ∧
    (∀ e, r = .error e → ¬ e.OfConstraints) ∧ ∀ b, r = .ok b → post b) :
    Reporting ng nh run post := by
  intro t r hend
  obtain ⟨ht, hr, hpost⟩ := h t r hend
  exact ⟨.of_unconstrained ht fun e he hof => absurd hof (hr e he), hpost⟩

theorem of_pure {b : β} (hb : post b) : Reporting ng nh (pure b : Run α β) post := by
  apply of_unconstrained
  intro t r hend
  obtain ⟨rfl, rfl⟩ := Run.ends_pure_iff.mp hend
  refine ⟨nofun, nofun, fun b' hb' => ?_⟩
  cases hb'
  exact hb

/-- A question other than for the constraints. -/
theorem of_query {q : Question α} (hq : ∀ x, q ≠ .constraints x) :
    Reporting ng nh (Run.query q) fun _ => True := by
  apply of_unconstrained
  intro t r hend
  obtain ⟨a, rfl, rfl⟩ := Run.ends_query_iff.mp hend
  refine ⟨fun x hx => ?_, nofun, fun _ _ => trivial⟩
  rw [List.mem_singleton.mp hx]
  exact hq

theorem of_finiteObjective (x : Vec α) : Reporting ng nh (Run.finiteObjective x) fun _ => True := by
  apply of_unconstrained
  intro t r hend
  obtain ⟨v, rfl, rfl⟩ := Run.ends_finiteObjective_iff.mp hend
  refine ⟨fun x hx => ?_, fun e he => ?_, fun _ _ => trivial⟩
  · rw [List.mem_singleton.mp hx]
    exact nofun
  · split at he
    · cases he
    · cases he
      exact nofun

/-- The constraints, evaluated and checked. -/
theorem of_checkedConstraints (x : Vec α) (lam : Multipliers α) :
    Reporting lam.ineq.length lam.eq.length (Run.checkedConstraints x lam) fun r =>
      r.ineq.length = lam.ineq.length ∧ r.eq.length = lam.eq.length := by
  intro t r hend
  obtain ⟨a, rfl, rfl⟩ := Run.ends_checked_iff.mp hend
  refine ⟨.of_check x a, fun b hb => ?_⟩
  cases hcheck : a.check lam.ineq.length lam.eq.length with
  | ok u =>
    rw [hcheck] at hb
    cases hb
    exact Residuals.lengths_of_check hcheck
  | error e =>
    rw [hcheck] at hb
    cases hb

end Reporting

/-! ### Runs under a Lagrangian -/

section Under

variable {l : Lagrangian α} {kept kept' : Kept α} {t u : Transcript α}

variable [PassesNonFinite α]

/-- Where all values are finite, no failure is kept. -/
theorem Lagrangian.Relayed.kept_of_allFinite (h : l.Relayed kept t u kept') (ht : t.AllFinite) :
    kept' = kept := by
  induction h with
  | nil => rfl
  | fails _ _ _ =>
    obtain ⟨hfin, -⟩ := Transcript.allFinite_objective_cons_iff.mp ht
    rw [PassesNonFinite.isFinite_undefined] at hfin
    cases hfin
  | evaluates _ _ ih => exact ih (Transcript.allFinite_objective_cons_iff.mp ht).2
  | withholds _ ih => exact ih ht
  | @passes _ _ _ _ x _ _ _ ih =>
    apply ih
    intro p hp
    exact ht p ((List.sublist_cons_self x _).filterMap _ |>.subset hp)

/-- **A run under a Lagrangian reports the failures of the constraints**, if the run does not
evaluate them itself, fails with such a failure only if the update rule does, and gives a result
only if it has met finite values, where estimates expose them. -/
theorem Reporting.of_under {β : Type} {run : Run α β}
    (h : ∀ t r, Run.Ends run t r → t.Unconstrained ∧
      (∀ e, r = .error e → e.OfConstraints → t.RuleFails e) ∧
      ∀ b, r = .ok b → t.Exposes → t.AllFinite) :
    Reporting l.multipliers.ineq.length l.multipliers.eq.length (Run.under l run) fun _ => True := by
  intro u r hend
  obtain ⟨t, r', kept, hrun, hrelayed, rfl⟩ := Lagrangian.ends_under hend
  obtain ⟨ht, herror, hok⟩ := h t r' hrun
  have hkept := hrelayed.kept_eq ht
  rw [Option.none_or] at hkept
  refine ⟨?_, fun _ _ => trivial⟩
  cases r' with
  | ok b =>
    refine ⟨fun hexp e he => ?_, nofun⟩
    rw [hrelayed.kept_of_allFinite (hok b rfl (hrelayed.exposes hexp))] at hkept
    cases hkept.trans he
  | error e =>
    refine ⟨fun _ e' he' => ?_, fun e' he' hof => ?_⟩
    · rw [hkept, he']
      rfl
    · cases hk : kept with
      | some failure =>
        rw [hk] at hkept he'
        cases he'
        obtain ⟨before, x, a, after, hevaluations, hfault, -⟩ :=
          Transcript.firstFailure_eq_some_iff.mp hkept.symm
        refine Or.inl ⟨(x, a), ?_, hfault⟩
        rw [hevaluations]
        exact List.mem_append_right _ List.mem_cons_self
      | none =>
        rw [hk] at he'
        obtain ⟨b, dx, dg, hmem⟩ := herror e' he' hof
        exact Or.inr ⟨b, dx, dg, hrelayed.mem hmem nofun nofun⟩

/-! ### The augmented Lagrangian method -/

variable {opt : Options α} {lagOpt : LagrangianOptions α} {it : OuterIterate α} {ng nh : Nat}

theorem Reporting.of_innerRun : Reporting it.multipliers.ineq.length it.multipliers.eq.length
    (Run.innerRun lagOpt it) fun _ => True := by
  apply of_under
  intro t r hend
  have hsolve : Run.Ends (Method.quasiNewton.solve lagOpt.inner it.x) t r := hend
  refine ⟨Method.unconstrained_of_ends hsolve, fun e he => ?_, fun sol hsol hexp => ?_⟩
  · rw [he] at hend
    exact Run.ruleFails_of_ends_quasiNewton hend
  · rw [hsol] at hsolve
    exact Method.allFinite_of_ends hsolve hexp

theorem Reporting.of_gradientUnder (x : Vec α) (h : α) :
    Reporting l.multipliers.ineq.length l.multipliers.eq.length
      (Run.under l (Run.finiteGradient x h)) fun _ => True := by
  apply of_under
  intro t r hend
  refine ⟨(Run.evaluates_of_ends_finiteGradient hend).unconstrained, fun e he hof => ?_,
    fun g hg hexp => ?_⟩
  · rw [he] at hend
    exact absurd hof (Run.ofIteration_of_ends_finiteGradient hend).not_ofConstraints
  · rw [hg] at hend
    exact Run.allFinite_of_ends_finiteGradient hend hexp

/-- There are `ng` multipliers of inequalities and `nh` of equalities. -/
def Multipliers.Sized (ng nh : Nat) (lam : Multipliers α) : Prop :=
  lam.ineq.length = ng ∧ lam.eq.length = nh

omit [PassesNonFinite α] in
/-- An update leaves as many multipliers as there were. -/
theorem Multipliers.Sized.update {lam : Multipliers α} {r : Residuals α} (rho : α)
    (h : lam.Sized ng nh) (hg : r.ineq.length = ng) (hh : r.eq.length = nh) :
    (lam.update rho r).Sized ng nh := by
  constructor
  · rw [Multipliers.update, List.length_zipWith, h.1, hg, Nat.min_self]
  · rw [Multipliers.update, List.length_zipWith, h.2, hh, Nat.min_self]

/-- **An outer iteration reports the failures of the constraints**, and does not change the numbers
of the multipliers. -/
theorem Reporting.of_outerIteration {k : Nat} (hit : it.multipliers.Sized ng nh) :
    Reporting ng nh (Run.outerIteration opt lagOpt k it) fun i =>
      i.next.multipliers.Sized ng nh := by
  obtain ⟨rfl, rfl⟩ := hit
  refine bind of_innerRun fun inner _ => ?_
  refine bind (of_checkedConstraints inner.x it.multipliers) fun r ⟨hg, hh⟩ => ?_
  have hnext : (it.multipliers.update lagOpt.rho r).Sized it.multipliers.ineq.length
      it.multipliers.eq.length := .update lagOpt.rho ⟨rfl, rfl⟩ hg hh
  have hgradient := of_gradientUnder (l := ⟨it.multipliers.update lagOpt.rho r, lagOpt.rho⟩) inner.x
    opt.fdStep
  rw [hnext.1, hnext.2] at hgradient
  refine bind hgradient fun g _ => ?_
  refine bind (of_finiteObjective inner.x) fun f _ => ?_
  refine bind (of_query nofun) fun _ _ => ?_
  refine bind (of_query nofun) fun _ _ => ?_
  exact of_pure hnext

theorem Reporting.of_outerDescend {left k : Nat} (hit : it.multipliers.Sized ng nh) :
    Reporting ng nh (Run.outerDescend opt lagOpt left k it) fun _ => True := by
  have finish : ∀ (i : OuterIteration α) flag,
      Reporting ng nh (Run.outerFinish i flag) fun _ => True := by
    intro i flag
    exact bind (of_query nofun) fun _ _ => of_pure trivial
  induction left generalizing k it with
  | zero => exact bind (of_outerIteration hit) fun i _ => finish i _
  | succ left ih =>
    refine bind (of_outerIteration hit) fun i hi => ?_
    simp only
    split
    next flag _ => exact finish i flag
    next => exact ih hi

/-- **The augmented Lagrangian method reports the failures of the constraints.** It begins with an
evaluation at the starting point, whose numbers of residuals are those of the problem. -/
theorem Run.reports_of_ends_augmentedLagrangian {x₀ : Vec α}
    {r : Except (Failure α) (Solution α × Multipliers α)} (hopt : opt.fault? = none)
    (hlag : lagOpt.fault? = none) (hx₀ : x₀ ≠ [])
    (hend : Ends (augmentedLagrangian opt lagOpt x₀) t r) :
    ∃ r₀ rest, t.constraintEvaluations = (x₀, r₀) :: rest ∧
      t.Reports r₀.ineq.length r₀.eq.length r := by
  have hvalid : opt.validate = .ok () := Options.validate_eq_ok_iff.mpr hopt
  have hvalid' : lagOpt.validate = .ok () := by
    unfold LagrangianOptions.validate
    rw [hlag]
  have hrest : Ends (initialConstraints x₀ >>= fun r => do
      let f ← Run.finiteObjective x₀
      outerDescend opt lagOpt (opt.maxIt - 1) 0 ⟨x₀, f, .zeros r.ineq.length r.eq.length⟩) t r := by
    unfold augmentedLagrangian at hend
    rw [hvalid, hvalid'] at hend
    cases x₀ with
    | nil => exact absurd rfl hx₀
    | cons v vs => exact hend
  rcases ends_bind_iff.mp hrest with ⟨e, h₁, rfl⟩ | ⟨t₁, a, t₂, h₁, h₂, rfl⟩
  · obtain ⟨r₀, rfl, hfirst, -⟩ := reports_of_ends_initialConstraints h₁
    exact ⟨r₀, [], rfl, hfirst.error⟩
  · obtain ⟨r₀, rfl, hfirst, heq⟩ := reports_of_ends_initialConstraints h₁
    cases heq a rfl
    have hrun : Reporting a.ineq.length a.eq.length (Run.finiteObjective x₀ >>= fun f =>
        outerDescend opt lagOpt (opt.maxIt - 1) 0 ⟨x₀, f, .zeros a.ineq.length a.eq.length⟩)
        fun _ => True := by
      apply Reporting.bind (Reporting.of_finiteObjective x₀)
      intro f _
      exact Reporting.of_outerDescend ⟨List.length_replicate, List.length_replicate⟩
    obtain ⟨hreports, -⟩ := hrun t₂ r h₂
    exact ⟨a, _, rfl, hfirst.append hreports⟩

end Under

/-! ### Runs on problems -/

namespace Callbacks

variable {β σ : Type} {problem : Callbacks (StateM σ) α}

/-- The rule has failures of its own, none of the constraints. -/
def FailsApart (problem : Callbacks (StateM σ) α) : Prop :=
  ∀ b dx dg s e, ((problem.update b dx dg).run s).1 = .error e → ¬ e.OfConstraints

end Callbacks

namespace Run

/-- **A failure of the constraints is reported, as itself**, by every call with usable options and a
design vector that has elements, also if the answers of the callbacks change from call to call. If an
evaluation is not as it should be, for the numbers of residuals at the starting point, the outcome is
the fault of the first such evaluation; where forward differences are in use, the update rule must
leave rows. Conversely, unless the update rule itself fails so, an outcome of this kind is the fault
of an evaluation. -/
theorem firstFault_of_recordOn {σ : Type} {problem : Callbacks (StateM σ) Float}
    {opt : Options Float} {lagOpt : LagrangianOptions Float} {x₀ : Vec Float}
    (hopt : opt.fault? = none) (hlag : lagOpt.fault? = none) (hx₀ : x₀ ≠ [])
    (hgradient : problem.Differences) (s : σ) :
    let out := (((augmentedLagrangian opt lagOpt x₀).recordOn problem).run s).1
    ∃ r₀ rest, out.2.constraintEvaluations = (x₀, r₀) :: rest ∧
      ((problem.UsesForward → out.2.KeepsRows) →
        ∀ p ∈ out.2.constraintEvaluations, ∀ e, p.2.Fault r₀.ineq.length r₀.eq.length e →
          ∃ e', out.2.FirstFault r₀.ineq.length r₀.eq.length e' ∧ out.1 = .error e') ∧
      (problem.FailsApart → ∀ e, out.1 = .error e → e.OfConstraints →
        ∃ p ∈ out.2.constraintEvaluations, p.2.Fault r₀.ineq.length r₀.eq.length e) := by
  intro out
  obtain ⟨r₀, rest, hrest, hreports⟩ :=
    reports_of_ends_augmentedLagrangian hopt hlag hx₀ (ends_recordOn _ s)
  refine ⟨r₀, rest, hrest, fun hrows p hp e he => ?_, fun hapart e hout he => ?_⟩
  · have hexp := hgradient.estimates.exposes_recordOn opt lagOpt x₀ s hrows
    obtain ⟨e', he'⟩ := Transcript.exists_firstFailure hp he
    exact ⟨e', Transcript.firstFailure_eq_some_iff.mp he', hreports.first hexp e' he'⟩
  · rcases hreports.only e hout he with hfault | ⟨b, dx, dg, hmem⟩
    · exact hfault
    · obtain ⟨s', hs'⟩ := answer_of_recordOn hmem
      exact absurd he (hapart b dx dg s' e hs')

/-- A problem whose number of residuals changes after the starting point. -/
theorem firstFault_of_recordOn_changingNumber :
    let problem : Callbacks (StateM Nat) Float := {
      objective := fun x => pure (total x)
      constraints := fun x calls => (if calls = 0 then ⟨x, []⟩ else ⟨[], x⟩, calls + 1)
      gradient := fun x h => pure (.forward x h)
      update := fun b dx dg => pure (UpdateRule.bfgs b dx dg)
      progress := fun _ => pure ()
      note := fun _ => pure () }
    let out := (((augmentedLagrangian .default .default [1]).recordOn problem).run 0).1
    problem.Differences ∧ out.2.KeepsRows ∧ problem.FailsApart ∧
      out.1 = .error (.dimensionMismatch .inequalities 1 0) := by
  intro problem out
  have hdiff : problem.Differences := fun _ _ _ => Or.inl rfl
  have hshape : problem.KeepsShape := fun _ _ _ _ _ h => UpdateRule.sameShape_of_bfgs h
  have hrows : out.2.KeepsRows := hshape.recordOn.keepsRows
  have hopt : (Options.default : Options Float).fault? = none := by decide
  have hlag : (LagrangianOptions.default : LagrangianOptions Float).fault? = none := by decide
  have hevals : out.2.constraintEvaluations = [([1], ⟨[1], []⟩), ([1], ⟨[], [1]⟩)] := rfl
  have hmem : ([1], ⟨[], [1]⟩) ∈ out.2.constraintEvaluations := by
    rw [hevals]
    exact List.mem_cons_of_mem _ List.mem_cons_self
  have hfirst : out.2.firstFailure 1 0 = some (.dimensionMismatch .inequalities 1 0) := by
    rw [Transcript.firstFailure, hevals]
    rfl
  obtain ⟨r₀, rest, hstart, hfault, -⟩ :=
    firstFault_of_recordOn hopt hlag (List.cons_ne_nil 1 []) hdiff 0
  cases hevals.symm.trans hstart
  obtain ⟨e, he, hout⟩ := hfault (fun _ => hrows) _ hmem _ (.inequalities Nat.zero_ne_one)
  cases hfirst.symm.trans (Transcript.firstFailure_eq_some_iff.mpr he)
  exact ⟨hdiff, hrows, fun _ _ _ _ _ => UpdateRule.not_ofConstraints_of_bfgs, hout⟩

/-- A sum of squares with forward differences and an update rule whose changes have no rows. There are
no constraints, but evaluation number `n`, from zero, gives a residual. -/
def lateFault (n : Nat) : Callbacks (StateM Nat) Float where
  objective x := pure (Vec.dot x x)
  constraints _ calls := (⟨if calls = n then [0] else [], []⟩, calls + 1)
  gradient x h := pure (.forward x h)
  update _ _ _ := pure (.ok (.ofFn 0 1 fun _ _ => 0))
  progress _ := pure ()
  note _ := pure ()

/-- A run that loses a failure: its inner run comes to a point without coordinates, where the only
evaluation for the gradient has a residual too many, and gives a result. -/
theorem not_firstFault_of_recordOn_lateFault :
    let opt : Options Float := { Options.default with lineMaxFev := 2 }
    let out := (((augmentedLagrangian opt ⟨1, opt⟩ [3]).recordOn (lateFault 12)).run 0).1
    opt.fault? = none ∧ (⟨1, opt⟩ : LagrangianOptions Float).fault? = none ∧
      (lateFault 12).Differences ∧ (lateFault 12).FailsApart ∧
      ∃ r₀ rest, out.2.constraintEvaluations = ([3], r₀) :: rest ∧
        (∃ p ∈ rest, ∃ e, p.2.Fault r₀.ineq.length r₀.eq.length e) ∧ ∃ b, out.1 = .ok b := by
  intro opt out
  have hopt : opt.fault? = none := by decide
  have hlag : (⟨1, opt⟩ : LagrangianOptions Float).fault? = none := by decide
  have hrun : Run.failure? out.1 = none ∧
      out.2.constraintEvaluations.map (fun p => p.2.ineq.length) =
        List.replicate 12 0 ++ 1 :: [0, 0] := by
    decide +kernel
  obtain ⟨r₀, rest, hrest, -⟩ :=
    reports_of_ends_augmentedLagrangian hopt hlag (List.cons_ne_nil 3 []) (ends_recordOn _ 0)
  have hlengths := hrun.2
  rw [show out.2.constraintEvaluations = ([3], r₀) :: rest from hrest, List.map_cons] at hlengths
  obtain ⟨hzero, hlengths⟩ := List.cons.inj hlengths
  obtain ⟨p, hp, hone⟩ : ∃ p ∈ rest, p.2.ineq.length = 1 := by
    rw [← List.mem_map (f := fun p : Vec Float × Residuals Float => p.2.ineq.length), hlengths]
    decide
  have hdiff : (lateFault 12).Differences := fun _ _ _ => Or.inl rfl
  have hapart : (lateFault 12).FailsApart := fun _ _ _ _ _ h => nomatch h
  refine ⟨hopt, hlag, hdiff, hapart, r₀, rest, hrest, ⟨p, hp, _, .inequalities ?_⟩,
    failure?_eq_none_iff.mp hrun.1⟩
  rw [hone]
  exact fun h => absurd (h.trans hzero) (by decide)

end Run

end Optimum

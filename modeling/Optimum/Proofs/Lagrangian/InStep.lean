import Optimum.Proofs.Descent.Budget
import Optimum.Proofs.Loop
import Optimum.Proofs.Scalar.NonFinite

/-!
# Objective and constraints in step

The augmented Lagrangian method evaluates the objective only where it evaluates the constraints, and
after them: where a Lagrangian is evaluated they are a pair, and where an inner run ends the
constraints are evaluated before the gradient of the Lagrangian, and the objective after it. So the
constraints lead all the time. An evaluation of the objective is left out only where the residuals
do not pass the check, and a run that gives a result has met no such residuals, as far as its
estimates expose the values that they are made of.

## What is proved

* `Transcript.Leads` says how far the constraints lead along a transcript and after it, and
  `Run.Leads` says it of all paths of a run, with a rule for each way of putting runs together.
* `Run.InnerRuns` takes the outer iterations of a run apart into rounds with an inner run each, and
  `Run.Round.points` and `Run.Round.count` say what a round evaluates.
* `Run.inStep_of_recordOn`: every call keeps objective and constraints in step, and what a call that
  gives a result has evaluated.
-/

namespace Optimum

open Scalar

variable {α β γ : Type}

/-! ### The constraints lead -/

namespace Transcript

variable {k k' k'' : ℕ} {t u : Transcript α}

/-- If the constraints have been evaluated `k` times more than the objective, they are never behind
along the transcript, and `k'` times ahead after it. -/
structure Leads (k k' : ℕ) (t : Transcript α) : Prop where
  /-- Along the transcript. -/
  along : ∀ u : Transcript α, u <+: t → u.evaluations.length ≤ k + u.constraintEvaluations.length
  /-- After it. -/
  after : k' + t.evaluations.length ≤ k + t.constraintEvaluations.length

theorem leads_nil (k : ℕ) : Leads k k ([] : Transcript α) where
  along u hu := by
    rw [List.prefix_nil.mp hu]
    exact Nat.zero_le _
  after := le_rfl

/-- A single exchange. -/
theorem leads_singleton {x : Dialogue.Exchange (Answer α)}
    (h : k' + (evaluations [x]).length ≤ k + (constraintEvaluations [x]).length) :
    Leads k k' [x] where
  along u hu := by
    rcases List.prefix_cons_iff.mp hu with rfl | ⟨v, rfl, hv⟩
    · exact Nat.zero_le _
    · rw [List.prefix_nil.mp hv]
      omega
  after := h

theorem Leads.append (ht : t.Leads k k') (hu : u.Leads k' k'') : (t ++ u).Leads k k'' where
  along v hv := by
    rcases List.prefix_or_prefix_of_prefix hv (List.prefix_append t u) with h | ⟨w, rfl⟩
    · exact ht.along v h
    · have hw := hu.along w ((List.prefix_append_right_inj t).mp hv)
      have hafter := ht.after
      simp only [evaluations_append, constraintEvaluations_append, List.length_append]
      omega
  after := by
    have hafter := ht.after
    have hafter' := hu.after
    simp only [evaluations_append, constraintEvaluations_append, List.length_append]
    omega

/-- Part of a lead may be disregarded. -/
theorem Leads.mono (ht : t.Leads k k') (hk : k'' ≤ k') : t.Leads k k'' :=
  ⟨ht.along, (Nat.add_le_add_right hk _).trans ht.after⟩

/-- A transcript that begins with an exchange that is not an evaluation. -/
theorem Leads.cons {x : Dialogue.Exchange (Answer α)} (hx : ∀ y, x.question ≠ .objective y)
    (ht : t.Leads k k') : Leads k k' (x :: t) := by
  have hsingle : Leads k k [x] := by
    apply leads_singleton
    obtain ⟨q, a⟩ := x
    cases q with
    | objective y => exact absurd rfl (hx y)
    | constraints y => exact Nat.le_succ _
    | _ => exact le_rfl
  exact hsingle.append ht

end Transcript

/-- **A run under a Lagrangian never lets the constraints fall behind**, whatever it does. -/
theorem Lagrangian.Relayed.leads [Scalar α] {l : Lagrangian α} {kept kept' : Kept α}
    {t u : Transcript α} (h : l.Relayed kept t u kept') (k : ℕ) : u.Leads k k := by
  induction h with
  | nil => exact Transcript.leads_nil k
  | fails _ _ ih => exact ih.cons nofun
  | @evaluates _ _ _ u x r v _ _ ih =>
    have hpair : Transcript.Leads k k [⟨.constraints x, r⟩, ⟨.objective x, v⟩] :=
      have hresiduals : Transcript.Leads k (k + 1) [⟨.constraints x, r⟩] :=
        Transcript.leads_singleton le_rfl
      hresiduals.append (Transcript.leads_singleton le_rfl)
    exact hpair.append ih
  | withholds _ ih => exact ih
  | passes hobjective _ _ ih => exact ih.cons hobjective

namespace Run

variable {k k' k'' : ℕ} {run : Run α β}

/-- If the constraints are `k` evaluations ahead when the run begins, they are never behind, and
`k'` ahead when it gives a result. -/
def Leads (k k' : ℕ) (run : Run α β) : Prop :=
  ∀ t r, Ends run t r → t.Leads k 0 ∧ (r.isOk → t.Leads k k')

namespace Leads

theorem pure (k : ℕ) (b : β) : Leads k k (Pure.pure b : Run α β) := by
  intro t r h
  obtain ⟨rfl, -⟩ := ends_pure_iff.mp h
  exact ⟨(Transcript.leads_nil k).mono (Nat.zero_le k), fun _ => Transcript.leads_nil k⟩

theorem throw (e : Failure α) : Leads k k' (MonadExcept.throw e : Run α β) := by
  intro t r h
  obtain ⟨rfl, rfl⟩ := ends_throw_iff.mp h
  exact ⟨(Transcript.leads_nil k).mono (Nat.zero_le k), nofun⟩

theorem check (k : ℕ) (x : Except (Failure α) β) : Leads k k (liftM x : Run α β) := by
  intro t r h
  obtain ⟨rfl, -⟩ := ends_liftM_iff.mp h
  exact ⟨(Transcript.leads_nil k).mono (Nat.zero_le k), fun _ => Transcript.leads_nil k⟩

theorem bind {f : β → Run α γ} (hrun : Leads k k' run) (hf : ∀ b, Leads k' k'' (f b)) :
    Leads k k'' (run >>= f) := by
  intro t r h
  rcases ends_bind_iff.mp h with ⟨e, h₁, rfl⟩ | ⟨t₁, b, t₂, h₁, h₂, rfl⟩
  · exact ⟨(hrun t _ h₁).1, nofun⟩
  · have hfirst := (hrun t₁ _ h₁).2 rfl
    obtain ⟨halong, hok⟩ := hf b t₂ r h₂
    exact ⟨hfirst.append halong, fun hr => hfirst.append (hok hr)⟩

theorem ite {p : Prop} [Decidable p] {x y : Run α β} (hx : Leads k k' x) (hy : Leads k k' y) :
    Leads k k' (if p then x else y) := by
  split
  · exact hx
  · exact hy

theorem query {q : Question α}
    (h : ∀ a : Answer α q, Transcript.Leads k k' [⟨q, a⟩]) : Leads k k' (Run.query q) := by
  intro t r hend
  obtain ⟨a, rfl, -⟩ := ends_query_iff.mp hend
  exact ⟨(h a).mono (Nat.zero_le k'), fun _ => h a⟩

theorem note (k : ℕ) (n : Note α) : Leads k k (Run.note n) :=
  query fun _ => Transcript.leads_singleton le_rfl

theorem progress (k : ℕ) (p : Progress α) : Leads k k (Run.progress p) :=
  query fun _ => Transcript.leads_singleton le_rfl

/-- The constraints gain an evaluation. -/
theorem constraints (k : ℕ) (x : Vec α) : Leads k (k + 1) (Run.constraints x) :=
  query fun _ => Transcript.leads_singleton le_rfl

/-- The objective catches up by one. -/
theorem objective (k : ℕ) (x : Vec α) : Leads (k + 1) k (Run.objective x) :=
  query fun _ => Transcript.leads_singleton le_rfl

variable [Scalar α]

/-- A run under a Lagrangian keeps the lead, whatever it does. -/
theorem under (k : ℕ) (l : Lagrangian α) (run : Run α β) : Leads k k (Run.under l run) := by
  intro u r h
  obtain ⟨t, r', kept, -, hrelayed, -⟩ := Lagrangian.ends_under h
  exact ⟨(hrelayed.leads k).mono (Nat.zero_le k), fun _ => hrelayed.leads k⟩

theorem finiteObjective (k : ℕ) (x : Vec α) : Leads (k + 1) k (Run.finiteObjective x) :=
  bind (objective k x) fun v => ite (pure k v) (throw _)

/-- **An outer iteration begins and ends in step.** -/
theorem outerIteration (opt : Options α) (lagOpt : LagrangianOptions α) (k : ℕ)
    (it : OuterIterate α) : Leads 0 0 (Run.outerIteration opt lagOpt k it) := by
  refine bind (under 0 _ _) fun inner => ?_
  have hresiduals : Leads 0 1 (Run.checkedConstraints inner.x it.multipliers) :=
    bind (constraints 0 inner.x) fun r => bind (check 1 _) fun _ => pure 1 r
  refine bind hresiduals fun r => bind (under 1 _ _) fun g => ?_
  refine bind (finiteObjective 0 inner.x) fun f => ?_
  exact bind (note 0 _) fun _ => bind (progress 0 _) fun _ => pure 0 _

/-- By induction on the iterations that are left. -/
theorem outerDescend (opt : Options α) (lagOpt : LagrangianOptions α) (left k : ℕ)
    (it : OuterIterate α) : Leads 0 0 (Run.outerDescend opt lagOpt left k it) := by
  have hfinish : ∀ (i : OuterIteration α) flag, Leads 0 0 (Run.outerFinish i flag) := fun i flag =>
    bind (note 0 _) fun _ => pure 0 _
  induction left generalizing k it with
  | zero => exact bind (outerIteration opt lagOpt k it) fun i => hfinish i _
  | succ left ih =>
    refine bind (outerIteration opt lagOpt k it) fun i => ?_
    dsimp only
    split
    · exact hfinish i _
    · exact ih (k + 1) i.next

/-- **The augmented Lagrangian method never lets the constraints fall behind.** -/
theorem augmentedLagrangian (opt : Options α) (lagOpt : LagrangianOptions α) (x₀ : Vec α) :
    Leads 0 0 (Run.augmentedLagrangian opt lagOpt x₀) := by
  refine bind (check 0 _) fun _ => bind (check 0 _) fun _ => ?_
  cases x₀ with
  | nil => exact throw _
  | cons a x =>
    have hinitial : Leads 0 1 (Run.initialConstraints (a :: x)) :=
      bind (constraints 0 _) fun r => bind (check 1 _) fun _ => pure 1 r
    refine bind hinitial fun r => bind (finiteObjective 0 _) fun f => ?_
    exact outerDescend opt lagOpt _ 0 _

end Leads

end Run

/-! ### Rounds -/

namespace Transcript

/-- The points at which the objective was evaluated. -/
def points (t : Transcript α) : List (Vec α) := t.evaluations.map Prod.fst

/-- The points at which the constraints were evaluated. -/
def constraintPoints (t : Transcript α) : List (Vec α) := t.constraintEvaluations.map Prod.fst

@[simp] theorem points_append (t u : Transcript α) : points (t ++ u) = points t ++ points u := by
  simp [points]

@[simp] theorem constraintPoints_append (t u : Transcript α) :
    constraintPoints (t ++ u) = constraintPoints t ++ constraintPoints u := by
  simp [constraintPoints]

end Transcript

variable [Scalar α]

section Relayed

variable {l : Lagrangian α} {kept kept' : Kept α} {t u : Transcript α}

/-- **Where all values are finite, a relayed run evaluates objective and constraints at the points
of the run**, in the same order. -/
theorem Lagrangian.Relayed.points_eq [PassesNonFinite α] (h : l.Relayed kept t u kept')
    (hfin : t.AllFinite) (ht : t.Unconstrained) :
    u.points = t.points ∧ u.constraintPoints = t.points := by
  induction h with
  | nil => exact ⟨rfl, rfl⟩
  | fails _ _ _ =>
    obtain ⟨hundefined, -⟩ := Transcript.allFinite_objective_cons_iff.mp hfin
    rw [PassesNonFinite.isFinite_undefined] at hundefined
    cases hundefined
  | @evaluates _ _ _ _ x _ _ _ _ ih =>
    obtain ⟨hpoints, hconstraints⟩ := ih (Transcript.allFinite_objective_cons_iff.mp hfin).2
      (List.forall_mem_cons.mp ht).2
    exact ⟨congrArg (x :: ·) hpoints, congrArg (x :: ·) hconstraints⟩
  | withholds _ ih => exact ih hfin (List.forall_mem_cons.mp ht).2
  | @passes _ _ _ _ x hobjective _ _ ih =>
    obtain ⟨hx, hrest⟩ := List.forall_mem_cons.mp ht
    obtain ⟨q, a⟩ := x
    cases q with
    | objective y => exact absurd rfl (hobjective y)
    | constraints y => exact absurd rfl (hx y)
    | _ => exact ih hfin hrest

/-- A run under a Lagrangian that gives a result, if such a run meets finite values only. No failure
is kept. -/
theorem Run.relayed_of_ends_under [PassesNonFinite α] {run : Run α β} {b : β}
    (h : Run.Ends (Run.under l run) u (.ok b)) (hexp : u.Exposes)
    (hfin : ∀ t, Run.Ends run t (.ok b) → t.Exposes → t.AllFinite) :
    ∃ t, Run.Ends run t (.ok b) ∧ l.Relayed none t u none ∧ t.AllFinite := by
  obtain ⟨t, r, kept, ht, hrelayed, hr⟩ := Lagrangian.ends_under h
  cases r with
  | error e => cases hr
  | ok b' =>
    cases hr
    have hfinite := hfin t ht (hrelayed.exposes hexp)
    rw [hrelayed.kept_of_allFinite hfinite] at hrelayed
    exact ⟨t, ht, hrelayed, hfinite⟩

end Relayed

namespace Run

variable {opt : Options α} {lagOpt : LagrangianOptions α} {k : ℕ} {it : OuterIterate α}
  {i : OuterIteration α} {t u : Transcript α}

/-- An outer iteration with exchanges `t`, of which the inner run had the exchanges `u` with its
Lagrangian. It begins with these, relayed to the problem, and ends with the residuals where the inner
run ended, a gradient under the next Lagrangian, and the objective. -/
structure Round (opt : Options α) (lagOpt : LagrangianOptions α) (k : ℕ) (it : OuterIterate α)
    (t : Transcript α) (i : OuterIteration α) (u : Transcript α) : Prop where
  /-- The outer iteration is complete. -/
  completes : Ends (outerIteration opt lagOpt k it) t (.ok i)
  /-- The inner run. -/
  inner : Ends (quasiNewton lagOpt.inner it.x) u (.ok i.inner)
  /-- Its part of the exchanges, and the other ones. -/
  parts : ∃ v w r g, Lagrangian.Relayed ⟨it.multipliers, lagOpt.rho⟩ none u v none ∧
    Ends (under ⟨i.next.multipliers, lagOpt.rho⟩ (finiteGradient i.next.x opt.fdStep)) w (.ok g) ∧
    t = v ++ (⟨.constraints i.next.x, r⟩ :: w) ++ ⟨.objective i.next.x, i.next.f⟩ ::
      outerAnnounced i

/-- The outer iterations of a run that gives a result, with exchanges `t`, as rounds whose inner
runs had the exchanges in the list with their Lagrangians. -/
inductive InnerRuns (opt : Options α) (lagOpt : LagrangianOptions α) :
    ℕ → OuterIterate α → Transcript α → List (Transcript α) → Prop where
  /-- The last one. -/
  | last {k : ℕ} {it : OuterIterate α} {t u : Transcript α} {i : OuterIteration α}
      (flag : ExitFlag) : Round opt lagOpt k it t i u →
      InnerRuns opt lagOpt k it (t ++ Note.written [.outerExit flag i.progress.iteration]) [u]
  /-- One that is followed by others. -/
  | next {k : ℕ} {it : OuterIterate α} {t u t' : Transcript α} {i : OuterIteration α}
      {us : List (Transcript α)} : Round opt lagOpt k it t i u →
      InnerRuns opt lagOpt (k + 1) i.next t' us → InnerRuns opt lagOpt k it (t ++ t') (u :: us)

variable [PassesNonFinite α]

/-- A completed outer iteration is a round. -/
theorem round_of_ends (h : Ends (outerIteration opt lagOpt k it) t (.ok i)) (hexp : t.Exposes) :
    ∃ u, Round opt lagOpt k it t i u := by
  obtain ⟨t₁, inner, r, t₂, g, f, h₁, -, h₂, -, rfl, rfl⟩ := ends_outerIteration_ok_iff.mp h
  simp only [Transcript.exposes_append_iff] at hexp
  have hinner : ∀ u, Ends (quasiNewton lagOpt.inner it.x) u (.ok inner) → u.Exposes →
      u.AllFinite := fun u (hu : Ends (Method.quasiNewton.solve lagOpt.inner it.x) u _) =>
    Method.allFinite_of_ends hu
  obtain ⟨u, hu, hrelayed, -⟩ := relayed_of_ends_under h₁ hexp.1.1 hinner
  exact ⟨u, h, hu, t₁, t₂, r, g, hrelayed, h₂, rfl⟩

/-- **What a round evaluates**: the objective at the points of the inner run, those of a gradient,
and where the inner run ended, and the constraints at the same points, but there before the
gradient. -/
theorem Round.points (h : Round opt lagOpt k it t i u) (hexp : t.Exposes) :
    ∃ plan w g, ⟨.gradient i.next.x opt.fdStep, plan⟩ ∈ t ∧ plan.Ends w g ∧
      t.points = u.points ++ w.map Dialogue.Exchange.question ++ [i.next.x] ∧
      t.constraintPoints = u.points ++ i.next.x :: w.map Dialogue.Exchange.question := by
  obtain ⟨v, v', r, g, hrelayed, hgradient, rfl⟩ := h.parts
  simp only [Transcript.exposes_append_iff] at hexp
  have hinner : Ends (Method.quasiNewton.solve lagOpt.inner it.x) u (.ok i.inner) := h.inner
  obtain ⟨hpoints, hconstraints⟩ := hrelayed.points_eq
    (Method.allFinite_of_ends hinner (hrelayed.exposes hexp.1.1))
    (Method.unconstrained_of_ends hinner)
  have hexp' : v'.Exposes := fun x step plan hx =>
    hexp.1.2 x step plan (List.mem_cons_of_mem _ hx)
  obtain ⟨u', hu', hrelayed', hfin⟩ := relayed_of_ends_under hgradient hexp' fun w hw =>
    allFinite_of_ends_finiteGradient hw
  obtain ⟨hpoints', hconstraints'⟩ :=
    hrelayed'.points_eq hfin (evaluates_of_ends_finiteGradient hu').unconstrained
  obtain ⟨plan, w, g', hw, rfl, -⟩ := ends_finiteGradient_iff.mp hu'
  have hplan : Transcript.points (⟨.gradient i.next.x opt.fdStep, plan⟩ :: ofPlan w) =
      w.map Dialogue.Exchange.question := by
    change (Transcript.evaluations (ofPlan w)).map Prod.fst = _
    simp
  rw [hplan] at hpoints' hconstraints'
  refine ⟨plan, w, g', ?_, hw, ?_, ?_⟩
  · have hmem := hrelayed'.mem List.mem_cons_self nofun nofun
    simp [hmem]
  · rw [Transcript.points_append, Transcript.points_append, hpoints, ← hpoints']
    rfl
  · rw [Transcript.constraintPoints_append, Transcript.constraintPoints_append, hconstraints,
      ← hconstraints']
    exact List.append_nil _

/-- How often a round evaluates the objective, if an estimate takes `G` evaluations. -/
theorem Round.count {G : ℕ} (h : Round opt lagOpt k it t i u) (hexp : t.Exposes)
    (hG : ∀ x step plan, ⟨.gradient x step, plan⟩ ∈ t → Plan.Takes plan G) :
    t.points.length = u.evaluations.length + G + 1 := by
  obtain ⟨plan, w, g, hplan, hw, hpoints, -⟩ := h.points hexp
  rw [hpoints, List.length_append, List.length_append, List.length_map,
    hG _ _ _ hplan w g hw, Transcript.points, List.length_map]
  rfl

/-! ### Rounds in sequence -/

/-- The outer iterations of a run that gives a result are rounds, as many as the result says. -/
theorem innerRuns_of_ends {left : ℕ} {b : Solution α × Multipliers α}
    (h : Ends (outerDescend opt lagOpt left k it) t (.ok b)) (hexp : t.Exposes) :
    ∃ us, InnerRuns opt lagOpt k it t us ∧ k + us.length = b.1.iterations := by
  rw [outerDescend_eq_run] at h
  replace h := Loop.runs_of_ends h
  generalize hr : Except.ok b = r at h
  induction h with
  | fails _ => cases hr
  | breaks _ _ _ => cases hr
  | stops h₁ _ =>
    cases hr
    rw [Transcript.exposes_append_iff] at hexp
    obtain ⟨u, hu⟩ := round_of_ends h₁ hexp.1
    exact ⟨[u], .last _ hu, (progress_of_ends_outerIteration h₁).2.symm⟩
  | goesOn h₁ _ h₃ _ ih =>
    obtain ⟨rfl, hnext⟩ := ends_pure_iff.mp h₃
    cases hnext
    simp only [Transcript.exposes_append_iff] at hexp
    obtain ⟨u, hu⟩ := round_of_ends h₁ hexp.1
    obtain ⟨us, hus, hlength⟩ := ih hexp.2.2 hr
    refine ⟨u :: us, .next hu hus, ?_⟩
    rw [← hlength, List.length_cons]
    omega

/-- **Rounds evaluate objective and constraints at the same points**, each as often. -/
theorem InnerRuns.perm {us : List (Transcript α)} (h : InnerRuns opt lagOpt k it t us)
    (hexp : t.Exposes) : t.constraintPoints.Perm t.points := by
  have hround : ∀ {k it t i u}, Round opt lagOpt k it t i u → t.Exposes →
      t.constraintPoints.Perm t.points := by
    intro k it t i u h hexp
    obtain ⟨plan, w, g, -, -, hpoints, hconstraints⟩ := h.points hexp
    rw [hpoints, hconstraints, List.append_assoc]
    exact (List.perm_append_singleton _ _).symm.append_left _
  induction h with
  | last flag h₁ =>
    rw [Transcript.exposes_append_iff] at hexp
    rw [Transcript.constraintPoints_append, Transcript.points_append]
    exact (hround h₁ hexp.1).append (List.Perm.refl _)
  | next h₁ _ ih =>
    rw [Transcript.exposes_append_iff] at hexp
    rw [Transcript.constraintPoints_append, Transcript.points_append]
    exact (hround h₁ hexp.1).append (ih hexp.2)

/-- How often they evaluate the objective. -/
theorem InnerRuns.count {us : List (Transcript α)} {G : ℕ} (h : InnerRuns opt lagOpt k it t us)
    (hexp : t.Exposes)
    (hG : ∀ x step plan, ⟨.gradient x step, plan⟩ ∈ t → Plan.Takes plan G) :
    t.points.length = (us.map fun u => u.evaluations.length + G + 1).sum := by
  induction h with
  | last flag h₁ =>
    rw [Transcript.exposes_append_iff] at hexp
    have hcount := h₁.count hexp.1 fun x step plan hx => hG x step plan (List.mem_append_left _ hx)
    rw [Transcript.points_append, List.length_append, hcount]
    rfl
  | next h₁ _ ih =>
    rw [Transcript.exposes_append_iff] at hexp
    have hcount := h₁.count hexp.1 fun x step plan hx => hG x step plan (List.mem_append_left _ hx)
    have hrest := ih hexp.2 fun x step plan hx => hG x step plan (List.mem_append_right _ hx)
    rw [Transcript.points_append, List.length_append, hcount, hrest, List.map_cons, List.sum_cons]

end Run

/-! ### Runs on problems -/

namespace Run

/-- **Objective and constraints are evaluated in step**, also if the answers of the callbacks change
from call to call. At every moment of every call the constraints have been evaluated at least as
often as the objective. If a call gives a result, and gradients are estimated by difference quotients
or without the objective, both have been evaluated at the same points, each as often. The call
consists of rounds with an inner run each, as many as the result says. If the inner runs have
evaluated their Lagrangians `E₁`, …, `E_K` times, and an estimate takes `G` evaluations, objective
and constraints have both been evaluated `1 + ∑ (E_k + G + 1)` times. Where forward differences are in
use, the update rule must leave rows for this: at a point without coordinates there is no quotient in
which a failed evaluation would show. -/
theorem inStep_of_recordOn {σ : Type} (problem : Callbacks (StateM σ) Float) (opt : Options Float)
    (lagOpt : LagrangianOptions Float) (x₀ : Vec Float) (s : σ) :
    let out := (((augmentedLagrangian opt lagOpt x₀).recordOn problem).run s).1
    (∀ t : Transcript Float, t <+: out.2 →
      t.evaluations.length ≤ t.constraintEvaluations.length) ∧
    (problem.Estimates → (problem.UsesForward → out.2.KeepsRows) →
      ∀ sol lam, out.1 = .ok (sol, lam) →
        out.2.constraintPoints.Perm out.2.points ∧
        ∃ r₀ f₀ rest us, out.2 = ⟨.constraints x₀, r₀⟩ :: ⟨.objective x₀, f₀⟩ :: rest ∧
          InnerRuns opt lagOpt 0 ⟨x₀, f₀, .zeros r₀.ineq.length r₀.eq.length⟩ rest us ∧
          us.length = sol.iterations ∧
          ∀ G, (∀ x h plan, ⟨.gradient x h, plan⟩ ∈ out.2 → Plan.Takes plan G) →
            out.2.evaluations.length = 1 + (us.map fun u => u.evaluations.length + G + 1).sum ∧
            out.2.constraintEvaluations.length =
              1 + (us.map fun u => u.evaluations.length + G + 1).sum) := by
  intro out
  have hends : Ends (augmentedLagrangian opt lagOpt x₀) out.2 out.1 := ends_recordOn _ s
  refine ⟨fun t ht => ?_, fun hest hrows sol lam hok => ?_⟩
  · simpa using (Leads.augmentedLagrangian opt lagOpt x₀ _ _ hends).1.along t ht
  rw [hok] at hends
  rcases of_ends_augmentedLagrangian hends with
    ⟨e, he, -⟩ | ⟨r₀, f₀, (rest : Transcript Float), -, -, -, -, -, ht, h⟩
  · cases he
  have hexp : rest.Exposes := fun x step plan hx =>
    hest.exposes_recordOn opt lagOpt x₀ s hrows x step plan (by simp [out, ht, hx])
  obtain ⟨us, hus, hlength⟩ := innerRuns_of_ends h hexp
  have hpoints : out.2.points = x₀ :: rest.points := by rw [ht]; rfl
  have hconstraints : out.2.constraintPoints = x₀ :: rest.constraintPoints := by rw [ht]; rfl
  have hperm : out.2.constraintPoints.Perm out.2.points := by
    rw [hpoints, hconstraints]
    exact (hus.perm hexp).cons x₀
  refine ⟨hperm, r₀, f₀, rest, us, ht, hus, by simpa using hlength, fun G hG => ?_⟩
  have hcount := hus.count hexp fun x step plan hx => hG x step plan (by simp [ht, hx])
  have hevaluations : out.2.evaluations.length = 1 + rest.points.length := by
    rw [← List.length_map (f := Prod.fst), ← Transcript.points, hpoints, List.length_cons,
      Nat.add_comm]
  have hsame : out.2.constraintEvaluations.length = out.2.evaluations.length := by
    simpa [Transcript.points, Transcript.constraintPoints] using hperm.length_eq
  rw [hsame, hevaluations, hcount]
  exact ⟨rfl, rfl⟩

/-- A sum of squares that grows with every call, on the unit circle, with forward differences and an
update rule that changes nothing. -/
def growingSquares : Callbacks (StateM Nat) Float where
  objective x calls := (Vec.dot x x + calls.toFloat, calls + 1)
  constraints x := pure ⟨[], [Vec.dot x x - 1]⟩
  gradient x h := pure (.forward x h)
  update b _ _ := pure (.ok b.cleared)
  progress _ := pure ()
  note _ := pure ()

/-- A run of two outer iterations on it. -/
theorem inStep_of_recordOn_growingSquares :
    let inner : Options Float := { Options.default with maxIt := 1, lineMaxFev := 2 }
    let opt : Options Float := { Options.default with maxIt := 2 }
    let out := (((augmentedLagrangian opt ⟨1, inner⟩ [3]).recordOn growingSquares).run 0).1
    growingSquares.Estimates ∧ out.2.KeepsRows ∧
      ∃ sol lam, out.1 = .ok (sol, lam) ∧ sol.iterations = 2 ∧
        out.2.constraintPoints.Perm out.2.points := by
  intro inner opt out
  have hest : growingSquares.Estimates := fun _ _ _ => Or.inl rfl
  have hshape : growingSquares.KeepsShape := by
    intro b dx dg s db h
    cases h
    exact b.sameShape_cleared
  have hrows : out.2.KeepsRows := hshape.recordOn.keepsRows
  have hrun : Run.failure? out.1 = none ∧
      out.1.toOption.map (fun b => b.1.iterations) = some 2 := by
    decide +kernel
  obtain ⟨⟨sol, lam⟩, hok⟩ := Run.failure?_eq_none_iff.mp hrun.1
  have htwo : sol.iterations = 2 := by simpa [hok, Except.toOption] using hrun.2
  obtain ⟨-, hresult⟩ := inStep_of_recordOn growingSquares opt ⟨1, inner⟩ [3] 0
  exact ⟨hest, hrows, sol, lam, hok, htwo, (hresult hest (fun _ => hrows) sol lam hok).1⟩

/-- An evaluation of the constraints that fails at a point without coordinates, and is followed by
none of the objective, does not keep a run from giving a result. -/
theorem not_inStep_of_recordOn_lateFault :
    let opt : Options Float := { Options.default with lineMaxFev := 2 }
    let out := (((augmentedLagrangian opt ⟨1, opt⟩ [3]).recordOn (lateFault 12)).run 0).1
    (lateFault 12).Estimates ∧ (∃ b, out.1 = .ok b) ∧
      ¬ out.2.constraintPoints.Perm out.2.points := by
  intro opt out
  have hrun : Run.failure? out.1 = none ∧ out.2.constraintPoints.length = 15 ∧
      out.2.points.length = 14 := by
    decide +kernel
  have hest : (lateFault 12).Estimates := fun _ _ _ => Or.inl rfl
  refine ⟨hest, failure?_eq_none_iff.mp hrun.1, fun hperm => ?_⟩
  have hlength := hperm.length_eq
  rw [hrun.2.1, hrun.2.2] at hlength
  cases hlength

end Run

end Optimum

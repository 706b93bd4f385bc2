import Mathlib.Tactic.Ring
import Optimum.Scalar.Binary64
import Optimum.Proofs.Descent.Counters
import Optimum.Proofs.Difference

/-!
# The budget of a descent

How often a descent evaluates its objective: `1 + G` times at the starting point and after each
iteration, where `G` is what an estimate of the gradient takes, and in each line search at least
twice and at most as often as its budget says. One evaluation of that budget is kept back for the
full step, so Brent's search is allowed one less.

An estimate takes `G` evaluations at points as long as the starting point. No point is longer, since
a step has no more elements than the point that it is added to; a point is shorter only where a
direction is, and then takes fewer. So the upper bounds hold of every run, and the lower bound holds
if the directions of the method reach every coordinate.

## What is proved

* `Run.evaluations_of_iterates` is the step lemma, and `Run.Descends.evaluations` the induction.
* `Method.budget_of_recordOn`: the bounds of a whole run, and that no counter leaves its range.
-/

namespace Optimum

open Scalar

variable {α : Type}

/-! ### Estimates -/

namespace Plan

/-- The plan evaluates the objective exactly `m` times. -/
def Takes (plan : Plan α (Vec α)) (m : Nat) : Prop := ∀ u g, plan.Ends u g → u.length = m

/-- Plans for one element after another, each with `m` evaluations. -/
theorem takes_mapM {ι : Type} {quotient : ι → Plan α α} {is : List ι} {m : Nat}
    (hquotient : ∀ i u v, (quotient i).Ends u v → u.length = m) :
    (is.mapM quotient).Takes (m * is.length) := by
  intro u g hend
  induction is generalizing u g with
  | nil =>
    obtain ⟨rfl, -⟩ := Dialogue.ends_done_iff.mp hend
    rfl
  | cons i is ih =>
    obtain ⟨u₁, v, u₂, g', h₁, h₂, rfl, -⟩ := ends_mapM_cons_iff.mp hend
    rw [List.length_append, hquotient i u₁ v h₁, ih u₂ g' h₂, List.length_cons]
    ring

variable [Scalar α]

/-- Forward differences take an evaluation at the point and one for each coordinate. -/
theorem takes_forward (x : Vec α) (h : α) : (forward x h).Takes (x.length + 1) := by
  intro u g hend
  obtain ⟨f₀, u', rfl, hrest⟩ := Dialogue.ends_ask_iff.mp hend
  have hquotient : ∀ (forth : Vec α) (w : Dialogue.Record fun _ : Vec α => α) (v : α),
      Dialogue.Ends (do
        let f₁ ← value forth
        pure ((f₁ - f₀) / h) : Plan α α) w v → w.length = 1 := by
    intro forth w v hw
    obtain ⟨f₁, w', rfl, hw'⟩ := Dialogue.ends_ask_iff.mp hw
    obtain ⟨rfl, -⟩ := Dialogue.ends_done_iff.mp hw'
    rfl
  have hlen := takes_mapM hquotient u' g hrest
  rw [length_perturbed, Nat.one_mul] at hlen
  rw [List.length_cons, hlen]

/-- Central differences take two evaluations for each coordinate. -/
theorem takes_central (x : Vec α) (h : α) : (central x h).Takes (2 * x.length) := by
  intro u g hend
  have hlen := takes_mapM (m := 2) ?_ u g hend
  · rwa [List.length_zip, length_perturbed, length_perturbed, Nat.min_self] at hlen
  intro ⟨forth, back⟩ w v hw
  obtain ⟨f₁, w₁, rfl, h₁⟩ := Dialogue.ends_ask_iff.mp hw
  obtain ⟨f₂, w₂, rfl, h₂⟩ := Dialogue.ends_ask_iff.mp h₁
  obtain ⟨rfl, -⟩ := Dialogue.ends_done_iff.mp h₂
  rfl

/-- What an estimator by difference quotients takes grows with the number of coordinates, of which
`n` take `G`. -/
theorem exists_cost_of_differences {n G : Nat} {est : Vec α → α → Plan α (Vec α)}
    (hest : est = forward ∧ G = n + 1 ∨ est = central ∧ G = 2 * n) :
    ∃ cost : Nat → Nat, Monotone cost ∧ cost n = G ∧ ∀ x h, (est x h).Takes (cost x.length) := by
  rcases hest with ⟨rfl, rfl⟩ | ⟨rfl, rfl⟩
  · exact ⟨(· + 1), fun _ _ h => Nat.succ_le_succ h, rfl, takes_forward⟩
  · exact ⟨(2 * ·), fun _ _ h => Nat.mul_le_mul_left 2 h, rfl, takes_central⟩

end Plan

namespace Run

/-! ### One iteration -/

variable [Scalar α] {opt : Options α} {n : Nat} {cost : Nat → Nat} {t : Transcript α}
  {est : Vec α → α → Plan α (Vec α)}

/-- An iterate takes an evaluation and an estimate. -/
theorem evaluations_of_ends_iterate {x : Vec α} {h : α} {r : Except (Failure α) (Iterate α)}
    (htakes : ∀ x h, (est x h).Takes (cost x.length)) (hest : t.EstimatorIs est)
    (hend : Ends (iterate x h) t r) :
    t.evaluations.length ≤ 1 + cost x.length ∧
      (r.isOk → t.evaluations.length = 1 + cost x.length) := by
  have hlen : ∀ {v t' r'}, t = ⟨.objective x, v⟩ :: t' → Ends (finiteGradient x h) t' r' →
      t.evaluations.length = 1 + cost x.length := by
    rintro v t' r' rfl hg
    obtain ⟨plan, u, g, hu, rfl, -⟩ := ends_finiteGradient_iff.mp hg
    cases hest x h plan (by simp)
    change ((x, v) :: Transcript.evaluations (ofPlan u)).length = _
    rw [Transcript.evaluations_ofPlan, List.length_cons, List.length_map, htakes x h u g hu,
      Nat.add_comm]
  cases r with
  | ok it =>
    obtain ⟨v, t', g, -, hg, ht, -⟩ := ends_iterate_ok_iff.mp hend
    exact ⟨(hlen ht hg).le, fun _ => hlen ht hg⟩
  | error e =>
    refine ⟨?_, nofun⟩
    rcases ends_iterate_error_iff.mp hend with ⟨v, -, rfl, -⟩ | ⟨v, t', -, hg, ht⟩
    · exact Nat.le_add_right _ _
    · exact (hlen ht hg).le

variable {method : Method} {σ : Stage α (method.Memory α)}

/-- The point that an iteration leads to is no longer than the one before. -/
theorem length_next_le {i : Iteration α (method.Memory α)}
    (h : Iterates (method.strategy n) opt σ t (.ok i)) : i.next.x.length ≤ σ.it.x.length := by
  obtain ⟨t₁, t₂, step, next, -, h₂, rfl, -⟩ := ends_iteration_ok_iff.mp h
  obtain ⟨hx, -⟩ := shape_of_ends_iterate h₂
  change next.x.length ≤ _
  rw [hx, Vec.length_along]
  exact Nat.min_le_left _ _

/-- **What an iteration takes**: a line search, and an iterate. -/
theorem evaluations_of_iterates {r : Except (Failure α) (Iteration α (method.Memory α))}
    (hfev : 2 ≤ opt.lineMaxFev) (hcost : Monotone cost)
    (htakes : ∀ x h, (est x h).Takes (cost x.length)) (hσ : σ.it.x.length ≤ n)
    (h : Iterates (method.strategy n) opt σ t r) (hest : t.EstimatorIs est) :
    t.evaluations.length ≤ 1 + cost n + opt.lineMaxFev ∧
      (σ.Full n → r.isOk → 1 + cost n + 2 ≤ t.evaluations.length) := by
  have hpoint : ∀ a, cost (σ.it.x.along
      (unitDirection (method.strategy n) σ.k σ.it σ.memory) a).length ≤ cost n := fun a => by
    rw [Vec.length_along]
    exact hcost ((Nat.min_le_left _ _).trans hσ)
  cases r with
  | ok i =>
    obtain ⟨t₁, t₂, step, next, h₁, h₂, rfl, rfl⟩ := ends_iteration_ok_iff.mp h
    simp only [Transcript.estimatorIs_append_iff] at hest
    obtain ⟨hle, hge⟩ := evaluations_of_ends_lineSearch hfev h₁
    obtain ⟨-, heq⟩ := evaluations_of_ends_iterate htakes hest.1.2 h₂
    have hge := hge rfl
    have heq := heq rfl
    have hle' := hpoint step.alpha
    rw [Transcript.evaluations_append, Transcript.evaluations_append, List.length_append,
      List.length_append]
    change _ + _ + 0 ≤ _ ∧ (_ → _ → _ ≤ _ + _ + 0)
    refine ⟨by omega, fun hfull _ => ?_⟩
    rw [hfull.length_along] at heq
    omega
  | error e =>
    refine ⟨?_, fun _ hok => absurd hok Bool.false_ne_true⟩
    rcases ends_iteration_error_iff.mp h with h₁ | ⟨t₁, t₂, step, h₁, h₂, rfl⟩
    · obtain ⟨hle, -⟩ := evaluations_of_ends_lineSearch hfev h₁
      omega
    · rw [Transcript.estimatorIs_append_iff] at hest
      obtain ⟨hle, -⟩ := evaluations_of_ends_lineSearch hfev h₁
      obtain ⟨hle', -⟩ := evaluations_of_ends_iterate htakes hest.2 h₂
      have hle'' := hpoint step.alpha
      rw [Transcript.evaluations_append, List.length_append]
      omega

/-! ### Whole runs -/

/-- **What a descent takes**, by the number of iterations that it begins. -/
theorem Descends.evaluations {left : Nat} {stages : List (Stage α (method.Memory α))}
    {r : Except (Failure α) (Solution α)} (hfev : 2 ≤ opt.lineMaxFev) (hcost : Monotone cost)
    (htakes : ∀ x h, (est x h).Takes (cost x.length))
    (h : Descends (method.strategy n) opt left σ t stages r) (hσ : σ.it.x.length ≤ n)
    (hest : t.EstimatorIs est) :
    stages.length ≤ left + 1 ∧
      t.evaluations.length ≤ stages.length * (1 + cost n + opt.lineMaxFev) ∧
      ∀ sol, r = .ok sol → sol.iterations = σ.k + stages.length ∧
        (σ.Full n → t.KeepsRows → stages.length * (1 + cost n + 2) ≤ t.evaluations.length) := by
  induction h with
  | fails h₁ =>
    obtain ⟨hle, -⟩ := evaluations_of_iterates hfev hcost htakes hσ h₁ hest
    exact ⟨Nat.le_add_left _ _, by simpa using hle, nofun⟩
  | stops h₁ _ =>
    rw [Transcript.estimatorIs_append_iff] at hest
    obtain ⟨hle, hge⟩ := evaluations_of_iterates hfev hcost htakes hσ h₁ hest.1
    rw [Transcript.evaluations_append, Transcript.evaluations_written, List.append_nil]
    refine ⟨Nat.le_add_left _ _, by simpa using hle, fun sol hsol => ?_⟩
    cases hsol
    exact ⟨rfl, fun hfull _ => by simpa using hge hfull rfl⟩
  | refuses h₁ _ h₂ =>
    rw [Transcript.estimatorIs_append_iff] at hest
    obtain ⟨hle, -⟩ := evaluations_of_iterates hfev hcost htakes hσ h₁ hest.1
    rw [Transcript.evaluations_append, (Method.aside_absorb h₂).evaluations, List.append_nil]
    exact ⟨Nat.le_add_left _ _, by simpa using hle, nofun⟩
  | goesOn h₁ _ h₂ _ ih =>
    simp only [Transcript.estimatorIs_append_iff] at hest
    obtain ⟨hle, hge⟩ := evaluations_of_iterates hfev hcost htakes hσ h₁ hest.1.1
    obtain ⟨hstages, hle', hok⟩ := ih ((length_next_le h₁).trans hσ) hest.2
    rw [Transcript.evaluations_append, Transcript.evaluations_append,
      (Method.aside_absorb h₂).evaluations, List.append_nil, List.length_append, List.length_cons,
      Nat.succ_mul]
    refine ⟨Nat.succ_le_succ hstages, by omega, fun sol hsol => ?_⟩
    obtain ⟨hk, hge'⟩ := hok sol hsol
    refine ⟨by rw [hk]; dsimp only; omega, fun hfull hrows => ?_⟩
    simp only [Transcript.keepsRows_append_iff] at hrows
    have hge := hge hfull rfl
    have hge' := hge' ((hfull.iteration h₁).absorb h₂ hrows.1.2) hrows.2
    rw [Nat.succ_mul]
    omega

end Run

namespace Method

variable [Scalar α]

/-- **What a run takes**, by the iterations that it makes or fails in. -/
theorem evaluations_of_minimizes {method : Method} {opt : Options α} {x₀ : Vec α}
    {cost : Nat → Nat} {G : Nat} {est : Vec α → α → Plan α (Vec α)} {t : Transcript α}
    {stages : List (Stage α (method.Memory α))} {r : Except (Failure α) (Solution α)}
    (hopt : opt.fault? = none) (hcost : Monotone cost) (hG : cost x₀.length = G)
    (htakes : ∀ x h, (est x h).Takes (cost x.length))
    (h : Run.Minimizes (method.strategy x₀.length) (method.initial x₀.length) opt x₀ t stages r)
    (hest : t.EstimatorIs est) :
    stages.length ≤ opt.maxIt ∧
      t.evaluations.length ≤ 1 + G + stages.length * (1 + G + opt.lineMaxFev) ∧
      ∀ sol, r = .ok sol → sol.iterations = stages.length ∧
        (t.KeepsRows → 1 + G + stages.length * (1 + G + 2) ≤ t.evaluations.length) := by
  subst hG
  have husable := Options.fault?_eq_none_iff.mp hopt
  have hmaxIt := husable.maxIt
  cases h with
  | unusable _ => exact ⟨Nat.zero_le _, Nat.zero_le _, nofun⟩
  | empty _ _ => exact ⟨Nat.zero_le _, Nat.zero_le _, nofun⟩
  | unstarted _ _ h₁ =>
    obtain ⟨hle, -⟩ := Run.evaluations_of_ends_iterate htakes hest h₁
    exact ⟨Nat.zero_le _, hle.trans (Nat.le_add_right _ _), nofun⟩
  | descends _ _ h₁ h₂ =>
    rw [Transcript.estimatorIs_append_iff] at hest
    obtain ⟨-, hstart⟩ := Run.evaluations_of_ends_iterate htakes hest.1 h₁
    have hstart := hstart rfl
    have hshaped : (⟨0, _, method.initial x₀.length⟩ : Stage α (method.Memory α)).Shaped
        x₀.length := shaped_start h₁
    obtain ⟨hstages, hle, hok⟩ :=
      h₂.evaluations husable.lineMaxFev hcost htakes hshaped.point.le hest.2
    rw [Transcript.evaluations_append, List.length_append]
    refine ⟨by omega, by omega, fun sol hsol => ?_⟩
    obtain ⟨hk, hge⟩ := hok sol hsol
    refine ⟨hk.trans (Nat.zero_add _), fun hrows => ?_⟩
    rw [Transcript.keepsRows_append_iff] at hrows
    have hge := hge hshaped.full hrows.2
    omega

/-- **Every run ends within its budget of evaluations**, whatever the objective answers, and however
its answers change, if gradients are estimated by difference quotients with `G` evaluations each.
A run counts its iterations and evaluations without leaving the range of its counters, if these can
hold `maxIt` and `lineMaxFev`: the loops that count up, which end where a counter would leave it,
are the run. With `K` iterations, a run that succeeds makes no more than `1 + G` evaluations at `x₀`
and after each iteration, and no more than `lineMaxFev` in each line search; it makes as many
outside the line searches, and two or more in each of them, provided that the update rule of a
quasi-Newton method leaves rows. A run that fails makes no more than one could that succeeds. No line
search makes more than `lineMaxFev`. -/
theorem budget_of_recordOn {σ : Type} {problem : Callbacks (StateM σ) α}
    {est : Vec α → α → Plan α (Vec α)} {G : Nat} (x₀ : Vec α) (hest : problem.EstimatorIs est)
    (hG : est = Plan.forward ∧ G = x₀.length + 1 ∨ est = Plan.central ∧ G = 2 * x₀.length)
    {opt : Options α} (hopt : opt.validate = .ok ()) (method : Method) (s : σ) :
    let out := (((method.solve opt x₀).recordOn problem).run s).1
    let N := out.2.evaluations.length
    (∀ top, opt.maxIt ≤ top → opt.lineMaxFev ≤ top →
      method.solveCounted top opt x₀ = liftM (method.solve opt x₀)) ∧
    (∀ sol, out.1 = .ok sol → sol.iterations ≤ opt.maxIt ∧
      ((method = .quasiNewton → out.2.KeepsRows) →
        (sol.iterations + 1) * (1 + G) + 2 * sol.iterations ≤ N) ∧
      N ≤ (sol.iterations + 1) * (1 + G) + sol.iterations * opt.lineMaxFev) ∧
    (∀ e, out.1 = .error e → N ≤ (opt.maxIt + 1) * (1 + G) + opt.maxIt * opt.lineMaxFev) ∧
    ∀ x d f₀ t r, Run.Ends (Run.lineSearch opt x d f₀) t r →
      t.evaluations.length ≤ opt.lineMaxFev := by
  intro out N
  have hfault := Options.validate_eq_ok_iff.mp hopt
  have hends : Run.Ends (method.solve opt x₀) out.2 out.1 := Run.ends_recordOn _ s
  have hrows := fun hrows => keepsRows_of_ends hends hrows
  rw [solve_eq] at hends
  obtain ⟨stages, h⟩ := Run.ends_minimize_iff.mp hends
  obtain ⟨cost, hcost, hn, htakes⟩ := Plan.exists_cost_of_differences hG
  obtain ⟨hstages, hle, hok⟩ := evaluations_of_minimizes hfault hcost hn htakes h hest.recordOn
  have hsum : ∀ K L : Nat, (K + 1) * (1 + G) + K * L = 1 + G + K * (1 + G + L) := fun K L => by ring
  refine ⟨fun top hit hfev => solveCounted_eq hit hfev method x₀, fun sol hsol => ?_, fun e _ => ?_,
    fun x d f₀ t r ht => ?_⟩
  · obtain ⟨hK, hge⟩ := hok sol hsol
    rw [hK, Nat.mul_comm 2, hsum, hsum]
    exact ⟨hstages, fun h => hge (hrows h), hle⟩
  · rw [hsum]
    exact hle.trans (Nat.add_le_add_left (Nat.mul_le_mul_right _ hstages) _)
  · exact (Run.evaluations_of_ends_lineSearch (Options.fault?_eq_none_iff.mp hfault).lineMaxFev ht).1

/-- A sum of squares that sinks from call to call, with forward differences and an update rule that
changes nothing. -/
def sinkingSquares : Callbacks (StateM Nat) Float where
  objective x calls := (Vec.dot x x - calls.toFloat, calls + 1)
  constraints _ := pure ⟨[], []⟩
  gradient x h := pure (.forward x h)
  update b _ _ := pure (.ok b.cleared)
  progress _ := pure ()
  note _ := pure ()

/-- A run of three iterations on it, with at most three evaluations in each line search. -/
theorem budget_of_recordOn_sinkingSquares :
    let opt : Options Float := { Options.default with maxIt := 4, lineMaxFev := 3 }
    let out := (((quasiNewton.solve opt [3]).recordOn sinkingSquares).run 0).1
    sinkingSquares.EstimatorIs Plan.forward ∧ opt.validate = .ok () ∧ out.2.KeepsRows ∧
      quasiNewton.solveCounted 4 opt [3] = liftM (quasiNewton.solve opt [3]) ∧
      ∃ sol, out.1 = .ok sol ∧ sol.iterations = 3 ∧
        18 ≤ out.2.evaluations.length ∧ out.2.evaluations.length ≤ 21 := by
  intro opt out
  have hest : sinkingSquares.EstimatorIs Plan.forward := fun _ _ _ => rfl
  have hopt : opt.validate = .ok () := Options.validate_eq_ok_iff.mpr (by decide)
  have hshape : sinkingSquares.KeepsShape := by
    intro b dx dg s db h
    cases h
    exact b.sameShape_cleared
  have hrows : out.2.KeepsRows := hshape.recordOn.keepsRows
  obtain ⟨hcounted, hok, -, -⟩ :=
    budget_of_recordOn [3] hest (.inl ⟨rfl, rfl⟩) hopt quasiNewton 0
  have hrun : Run.failure? out.1 = none ∧ out.1.toOption.map (·.iterations) = some 3 := by
    decide +kernel
  obtain ⟨sol, hsol⟩ := Run.failure?_eq_none_iff.mp hrun.1
  have hthree : sol.iterations = 3 := by simpa [hsol, Except.toOption] using hrun.2
  obtain ⟨-, hge, hle⟩ := hok sol hsol
  have hge := hge fun _ => hrows
  rw [hthree] at hge hle
  exact ⟨hest, hopt, hrows, hcounted 4 (by decide) (by decide), sol, hsol, hthree, hge, hle⟩

/-- A sum of squares with forward differences, and an update rule whose changes have no rows. -/
def rowlessRule : Callbacks (StateM Unit) Float where
  objective x := pure (Vec.dot x x)
  constraints _ := pure ⟨[], []⟩
  gradient x h := pure (.forward x h)
  update b _ _ := pure (.ok (.ofFn 0 b.width fun _ _ => 0))
  progress _ := pure ()
  note _ := pure ()

/-- A point may lose its coordinates where the approximation loses its rows, and then takes fewer
evaluations: a run of two iterations makes one less than the least number of the others. -/
theorem not_budget_of_recordOn_rowlessRule :
    let opt : Options Float := { Options.default with lineMaxFev := 2 }
    let out := (((quasiNewton.solve opt [3]).recordOn rowlessRule).run ()).1
    let N := out.2.evaluations.length
    rowlessRule.EstimatorIs Plan.forward ∧ opt.validate = .ok () ∧
      ∃ sol, out.1 = .ok sol ∧ sol.iterations = 2 ∧
        ¬ (sol.iterations + 1) * (1 + 2) + 2 * sol.iterations ≤ N := by
  intro opt out N
  have hopt : opt.validate = .ok () := Options.validate_eq_ok_iff.mpr (by decide)
  have hrun : Run.failure? out.1 = none ∧ out.1.toOption.map (·.iterations) = some 2 ∧
      N = 12 := by decide +kernel
  obtain ⟨sol, hsol⟩ := Run.failure?_eq_none_iff.mp hrun.1
  have htwo : sol.iterations = 2 := by simpa [hsol, Except.toOption] using hrun.2.1
  refine ⟨fun _ _ _ => rfl, hopt, sol, hsol, htwo, ?_⟩
  rw [htwo, hrun.2.2]
  decide

end Method

end Optimum

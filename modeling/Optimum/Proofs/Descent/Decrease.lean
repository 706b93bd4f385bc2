import Mathlib.Tactic.Linarith
import Optimum.Proofs.Bracket.Interior
import Optimum.Proofs.Descent.Methods
import Optimum.Proofs.InverseHessian.Rules
import Optimum.Proofs.Vector.Exact

/-!
# Decrease of the objective

In exact arithmetic a line search never ends above the value from which it started, whatever the
direction, since it compares with that value. The loop evaluates the objective again at the point
found, and an objective without a state has the same value there. So the objective never increases
from iterate to iterate; and as an iteration that meets no exit test changes it by more than the
tolerance, it then decreases by more than the tolerance.

## What is proved

* `Step.Sound`: what is known of the step of a line search (`sound_of_ends_lineSearch`).
* `Stage.Sound` is the invariant of the loop; `Stage.Sound.iteration` is the step lemma and
  `Run.Descends.decreases` the induction.
* `Method.decreases_of_recordOn`: the objective decreases along every run of every method, and the
  number of iterations is bounded by the room above a lower bound of the objective.
-/

namespace Optimum

open Scalar

/-- The default settings are usable, with any budget of iterations. -/
theorem Options.usable_default {maxIt : ℕ} (h : maxIt ≠ 0) :
    ({ Options.default with maxIt := maxIt } : Options ℝ).Usable where
  gradTol := by norm_num [Options.default]
  deltaFTol := by norm_num [Options.default]
  deltaXTol := by norm_num [Options.default]
  maxIt := h
  fdStep := ⟨by norm_num [Options.default], rfl⟩
  lineTol := by norm_num [Options.default]
  lineMaxFev := by norm_num [Options.default]

/-! ### Steps -/

namespace Step

/-- A step is one of three candidates. -/
theorem choose_cases {α : Type} [Scalar α] (inside : Sample α) (f₀ f₁ : α) :
    choose inside f₀ f₁ = ⟨inside.x, inside.f, true⟩ ∨ choose inside f₀ f₁ = ⟨0, f₀, false⟩ ∨
      choose inside f₀ f₁ = ⟨1, f₁, false⟩ := by
  unfold choose
  simp only
  split_ifs <;> simp

/-- The full step is taken where it is strictly better than all else. -/
theorem choose_of_lt {α : Type} [Scalar α] {inside : Sample α} {f₀ f₁ : α}
    (hinside : f₁ < inside.f) (hstay : f₁ < f₀) : choose inside f₀ f₁ = ⟨1, f₁, false⟩ := by
  unfold choose
  simp only
  split_ifs <;> rfl

/-- The step is no worse than no step. -/
theorem choose_f_le (inside : Sample ℝ) (f₀ f₁ : ℝ) : (choose inside f₀ f₁).f ≤ f₀ := by
  unfold choose
  simp only
  split_ifs with h₁ h₂ h₂
  · exact h₂.le
  · exact le_rfl
  · exact h₂.le.trans (not_lt.mp h₁)
  · exact not_lt.mp h₁

/-- What is known of a step from `x` along `s`. -/
structure Sound (f : Vec ℝ → ℝ) (x s : Vec ℝ) (step : Step ℝ) : Prop where
  /-- The value is that of the objective after the step. -/
  value : step.f = f (x.along s step.alpha)
  /-- It is no worse than before. -/
  le : step.f ≤ f x
  /-- The step does not go back. -/
  nonneg : 0 ≤ step.alpha

end Step

namespace Run

variable {f : Vec ℝ → ℝ} {opt : Options ℝ} {x s : Vec ℝ} {t : Transcript ℝ}

/-- The step that a line search takes on an objective without a state is chosen from a point inside
the interval and the two ends. -/
theorem exists_choose_of_ends_lineSearch {f₀ : ℝ} {step : Step ℝ} (htol : 0 < opt.lineTol)
    (h : Ends (lineSearch opt x s f₀) t (.ok step)) (hf : t.ObjectiveIs f) :
    ∃ a, 0 < a ∧ a < 1 ∧
      step = Step.choose ⟨a, f (x.along s a)⟩ f₀ (f (x.along s 1)) := by
  obtain ⟨u, found, v, hu, -, -, rfl, rfl⟩ := ends_lineSearch_ok_iff.mp h
  simp only [Transcript.objectiveIs_append_iff] at hf
  obtain ⟨⟨⟨hline, -⟩, hfull⟩, -⟩ := hf
  obtain ⟨e, he, hbest⟩ := List.mem_map.mp (Search.best_mem_of_ends_boundedBrent hu)
  obtain ⟨hlo, hhi⟩ := Search.mem_Ioo_of_asks_boundedBrent one_pos htol (hu.asks e he)
  have hinside : e.answer = f (x.along s e.question) := by
    refine hline (x.along s e.question, e.answer) ?_
    rw [evaluations_onLine]
    exact List.mem_map_of_mem he
  have hlast : v = f (x.along s 1) := hfull (x.along s 1, v) List.mem_cons_self
  exact ⟨e.question, hlo, hhi, by rw [← hinside, ← hlast, ← hbest]⟩

/-- **A line search on an objective without a state gives a sound step.** -/
theorem sound_of_ends_lineSearch {step : Step ℝ} (htol : 0 < opt.lineTol)
    (hlen : s.length = x.length) (h : Ends (lineSearch opt x s (f x)) t (.ok step))
    (hf : t.ObjectiveIs f) : step.Sound f x s := by
  obtain ⟨a, ha, -, rfl⟩ := exists_choose_of_ends_lineSearch htol h hf
  have hle := Step.choose_f_le ⟨a, f (x.along s a)⟩ (f x) (f (x.along s 1))
  rcases Step.choose_cases ⟨a, f (x.along s a)⟩ (f x) (f (x.along s 1)) with heq | heq | heq <;>
    rw [heq] at hle ⊢
  · exact ⟨rfl, hle, ha.le⟩
  · exact ⟨by rw [Vec.along_zero hlen], hle, le_rfl⟩
  · exact ⟨rfl, hle, zero_le_one⟩

/-- An iterate has the value of the objective. -/
theorem value_of_ends_iterate {α : Type} [Scalar α] {f : Vec α → α} {x : Vec α} {h : α}
    {t : Transcript α} {it : Iterate α} (hend : Ends (iterate x h) t (.ok it))
    (hf : t.ObjectiveIs f) : it.f = f it.x := by
  obtain ⟨v, t', g, -, -, rfl, rfl⟩ := ends_iterate_ok_iff.mp hend
  exact hf (x, v) List.mem_cons_self

end Run

/-! ### Iterations -/

/-- What the monitor is told of iteration number `k`, from `x` to `x'`, is true. -/
structure Progress.Reports (f : Vec ℝ → ℝ) (k : Nat) (x x' : Vec ℝ) (p : Progress ℝ) : Prop where
  /-- The number of the iteration. -/
  iteration : p.iteration = k
  /-- The objective at the new iterate. -/
  objective : p.objective = f x'
  /-- The distance between the iterates. -/
  stepSize : p.stepSize = Vec.distance x' x

/-- An iteration from `x` to `x'` makes more progress than the tolerances ask for. -/
structure Progress.Exceeds (f : Vec ℝ → ℝ) (opt : Options ℝ) (x x' : Vec ℝ) (p : Progress ℝ) :
    Prop where
  /-- The objective decreases by more than its tolerance. -/
  decrease : f x' < f x - opt.deltaFTol
  /-- The step is longer than its tolerance. -/
  distance : opt.deltaXTol < Vec.distance x' x
  /-- The line search took a step. -/
  alpha : 0 < p.alpha

variable {f : Vec ℝ → ℝ} {opt : Options ℝ} {n : Nat} {method : Method}

/-- What is known when an iteration begins: the iterate has the objective's value, and all vectors
have the dimension of the run. -/
structure Stage.Sound (f : Vec ℝ → ℝ) (n : Nat) (σ : Stage ℝ (method.Memory ℝ)) : Prop
    extends σ.Shaped n where
  /-- The value is that of the objective. -/
  value : σ.it.f = f σ.it.x

/-- What is known when an iteration is complete. -/
structure Iteration.Sound (f : Vec ℝ → ℝ) (n : Nat) (σ : Stage ℝ (method.Memory ℝ))
    (i : Iteration ℝ (method.Memory ℝ)) : Prop where
  /-- All that is known when the next one begins, if the method learns nothing. -/
  next : Stage.Sound f n ⟨σ.k + 1, i.next, i.memory⟩
  /-- The monitor is told the truth. -/
  reports : i.progress.Reports f (σ.k + 1) σ.it.x i.next.x
  /-- The objective does not increase. -/
  le : f i.next.x ≤ f σ.it.x
  /-- The step does not go back. -/
  nonneg : 0 ≤ i.progress.alpha
  /-- Without a step the iterate stays. -/
  stays : i.progress.alpha = 0 → i.next.x = σ.it.x

variable {σ : Stage ℝ (method.Memory ℝ)} {t : Transcript ℝ} {i : Iteration ℝ (method.Memory ℝ)}

theorem Stage.Sound.iteration (hσ : σ.Sound f n) (htol : 0 < opt.lineTol)
    (h : Run.Iterates (method.strategy n) opt σ t (.ok i)) (hf : t.ObjectiveIs f) :
    i.Sound f n σ := by
  have hnext := hσ.toShaped.iteration h
  have hlen := hσ.length_unitDirection
  obtain ⟨t₁, t₂, step, next, h₁, h₂, rfl, rfl⟩ := Run.ends_iteration_ok_iff.mp h
  simp only [Transcript.objectiveIs_append_iff] at hf
  obtain ⟨⟨hf₁, hf₂⟩, -⟩ := hf
  rw [hσ.value] at h₁
  have hstep := Run.sound_of_ends_lineSearch htol hlen h₁ hf₁
  have hv := Run.value_of_ends_iterate h₂ hf₂
  obtain ⟨hx, -⟩ := Run.shape_of_ends_iterate h₂
  refine ⟨⟨hnext, hv⟩, ⟨rfl, hv, rfl⟩, ?_, hstep.nonneg, ?_⟩
  · calc f next.x = step.f := by rw [hstep.value, hx]
      _ ≤ f σ.it.x := hstep.le
  · intro (hzero : step.alpha = 0)
    exact hx.trans (by rw [hzero, Vec.along_zero hlen])

/-- **An iteration that meets no exit test makes more progress than the tolerances ask for.** -/
theorem Iteration.Sound.exceeds (hi : i.Sound f n σ) (hσ : σ.Sound f n) (hopt : opt.Usable)
    {left : Nat} (hnone : opt.exitAfter left σ.it i = none) :
    i.progress.Exceeds f opt σ.it.x i.next.x := by
  cases left with
  | zero => cases hnone
  | succ left =>
    obtain ⟨-, hx, hchange⟩ := Options.toleranceMet_eq_none_iff.mp hnone
    have hdist : opt.deltaXTol < Vec.distance i.next.x σ.it.x := by
      rw [← hi.reports.stepSize]
      exact not_le.mp hx
    refine ⟨?_, hdist, lt_of_le_of_ne hi.nonneg fun hzero => ?_⟩
    · rw [hi.next.value, hσ.value, magnitude_real, not_le, abs_of_nonpos (sub_nonpos.mpr hi.le)]
        at hchange
      linarith
    · rw [hi.stays hzero.symm, Vec.distance_self] at hdist
      exact absurd hopt.deltaXTol (not_le.mpr hdist)

/-- The next stage, after the method has learned from an iteration. -/
theorem Iteration.Sound.absorb (hi : i.Sound f n σ) {u : Transcript ℝ} {m : method.Memory ℝ}
    (h : Run.Ends ((method.strategy n).absorb σ.it i.next i.memory) u (.ok m))
    (hshape : u.KeepsShape) : Stage.Sound f n ⟨σ.k + 1, i.next, m⟩ :=
  ⟨hi.next.toShaped.absorb h hshape, hi.next.value⟩

/-! ### Runs -/

namespace Run

/-- The iterations of a descent are those that the monitor was told of. -/
theorem Descends.iterations_eq {α : Type} [Scalar α] {opt : Options α} {left : Nat}
    {σ : Stage α (method.Memory α)} {t : Transcript α} {stages : List (Stage α (method.Memory α))}
    {r : Except (Failure α) (Solution α)}
    (h : Descends (method.strategy n) opt left σ t stages r) {sol : Solution α} (hr : r = .ok sol) :
    sol.iterations = σ.k + t.progress.length := by
  induction h with
  | fails _ => cases hr
  | stops h₁ _ =>
    cases hr
    rw [Transcript.progress_append, (views_of_ends_iteration h₁).2, Transcript.progress_written]
    rfl
  | refuses _ _ _ => cases hr
  | goesOn h₁ _ h₂ _ ih =>
    rw [ih hr, Transcript.progress_append, Transcript.progress_append,
      (views_of_ends_iteration h₁).2, (Method.aside_absorb h₂).progress]
    simp only [List.append_nil, List.singleton_append, List.length_cons]
    omega

variable {left : Nat} {stages : List (Stage ℝ (method.Memory ℝ))}
  {r : Except (Failure ℝ) (Solution ℝ)}

/-- **Every iteration of a descent that is completed does not increase the objective, and one that
does not end the run makes more progress than the tolerances ask for.** -/
theorem Descends.decreases (h : Descends (method.strategy n) opt left σ t stages r)
    (hopt : opt.Usable) (hσ : σ.Sound f n) (hf : t.ObjectiveIs f) (hshape : t.KeepsShape) :
    ∀ j p, t.progress[j]? = some p → ∃ x x', (σ.it.x :: t.iterates)[j]? = some x ∧
      t.iterates[j]? = some x' ∧ p.Reports f (σ.k + j + 1) x x' ∧ f x' ≤ f x ∧
      ((∀ sol, r = .ok sol → sol.iterations ≠ σ.k + j + 1) → p.Exceeds f opt x x') := by
  induction h with
  | fails h₁ =>
    intro j p hp
    rw [progress_of_ends_iteration_error h₁] at hp
    cases hp
  | stops h₁ _ =>
    intro j p hp
    obtain ⟨hit, hprog⟩ := views_of_ends_iteration h₁
    have hi := hσ.iteration hopt.lineTol h₁ (Transcript.objectiveIs_append_iff.mp hf).1
    simp only [Transcript.progress_append, hprog, Transcript.progress_written] at hp
    cases j with
    | zero =>
      cases hp
      refine ⟨_, _, rfl, ?_, hi.reports, hi.le, fun hne => absurd rfl (hne _ rfl)⟩
      simp [hit]
    | succ j => cases hp
  | refuses h₁ hnone h₂ =>
    intro j p hp
    obtain ⟨hit, hprog⟩ := views_of_ends_iteration h₁
    have hi := hσ.iteration hopt.lineTol h₁ (Transcript.objectiveIs_append_iff.mp hf).1
    simp only [Transcript.progress_append, hprog, (Method.aside_absorb h₂).progress] at hp
    cases j with
    | zero =>
      cases hp
      refine ⟨_, _, rfl, ?_, hi.reports, hi.le, fun _ => hi.exceeds hσ hopt hnone⟩
      simp [hit]
    | succ j => cases hp
  | @goesOn _ σ _ _ _ i m _ _ h₁ hnone h₂ _ ih =>
    intro j p hp
    obtain ⟨hit, hprog⟩ := views_of_ends_iteration h₁
    simp only [Transcript.objectiveIs_append_iff, Transcript.keepsShape_append_iff] at hf hshape
    have hi := hσ.iteration hopt.lineTol h₁ hf.1.1
    have hu := Method.aside_absorb h₂
    simp only [Transcript.progress_append, hprog, hu.progress, Transcript.iterates_append, hit,
      hu.iterates, List.append_nil, List.singleton_append] at hp ⊢
    cases j with
    | zero =>
      cases hp
      exact ⟨_, _, rfl, rfl, hi.reports, hi.le, fun _ => hi.exceeds hσ hopt hnone⟩
    | succ j =>
      obtain ⟨x, x', hx, hx', h⟩ := ih (hi.absorb h₂ hshape.1.2) hf.2 hshape.2 j p hp
      rw [show σ.k + 1 + j = σ.k + (j + 1) by omega] at h
      exact ⟨x, x', hx, hx', h⟩

/-- Each iteration after the first takes its share of the room above a lower bound. -/
theorem Descends.iterations_le (h : Descends (method.strategy n) opt left σ t stages r)
    (hopt : opt.Usable) (hσ : σ.Sound f n) (hf : t.ObjectiveIs f) (hshape : t.KeepsShape)
    {sol : Solution ℝ} (hr : r = .ok sol) {m : ℝ} (hm : ∀ x, m ≤ f x) :
    ((sol.iterations : ℝ) - σ.k - 1) * opt.deltaFTol ≤ f σ.it.x - m := by
  induction h with
  | fails _ => cases hr
  | @stops _ σ _ _ _ _ _ =>
    cases hr
    have := hm σ.it.x
    push_cast
    linarith
  | refuses _ _ _ => cases hr
  | @goesOn _ σ _ _ _ i _ _ _ h₁ hnone h₂ _ ih =>
    simp only [Transcript.objectiveIs_append_iff, Transcript.keepsShape_append_iff] at hf hshape
    have hi := hσ.iteration hopt.lineTol h₁ hf.1.1
    have hdecrease := (hi.exceeds hσ hopt hnone).decrease
    have hrest := ih (hi.absorb h₂ hshape.1.2) hf.2 hshape.2 hr
    push_cast at hrest
    linarith

end Run

namespace Method

/-- A run that descends from its starting point begins at a sound stage. -/
theorem sound_start {t : Transcript ℝ} {it : Iterate ℝ} {x₀ : Vec ℝ} {h : ℝ}
    (hend : Run.Ends (Run.iterate x₀ h) t (.ok it)) (hf : t.ObjectiveIs f) :
    (⟨0, it, method.initial x₀.length⟩ : Stage ℝ (method.Memory ℝ)).Sound f x₀.length :=
  ⟨shaped_start hend, Run.value_of_ends_iterate hend hf⟩

/-- **The objective decreases along every run of every method**, whatever the estimator of
gradients, and whatever the update rule, as long as the changes it gives have the shape of the
approximation. Iteration number `k + 1` passes from iterate `k` to iterate `k + 1`; if it does not
end the run, it makes more progress than the tolerances ask for. So a lower bound of the objective
bounds the number of iterations. -/
theorem decreases_of_recordOn {σ : Type} {problem : Callbacks (StateM σ) ℝ}
    (hf : problem.ObjectiveIs f) (hshape : problem.KeepsShape) (method : Method)
    (opt : Options ℝ) (x₀ : Vec ℝ) (s : σ) :
    let out := (((method.solve opt x₀).recordOn problem).run s).1
    (∀ x, out.2.iterates[0]? = some x → x = x₀) ∧
    (∀ k p, out.2.progress[k]? = some p → ∃ x x', out.2.iterates[k]? = some x ∧
      out.2.iterates[k + 1]? = some x' ∧ p.Reports f (k + 1) x x' ∧ f x' ≤ f x ∧
      ((∀ sol, out.1 = .ok sol → sol.iterations ≠ k + 1) → p.Exceeds f opt x x')) ∧
    ∀ sol, out.1 = .ok sol → sol.iterations = out.2.progress.length ∧
      ∀ m, (∀ x, m ≤ f x) → 0 < opt.deltaFTol →
        (sol.iterations : ℝ) ≤ 1 + (f x₀ - m) / opt.deltaFTol := by
  intro out
  have hends : Run.Ends (method.solve opt x₀) out.2 out.1 := Run.ends_recordOn _ s
  have hf' : out.2.ObjectiveIs f := hf.recordOn
  have hshape' : out.2.KeepsShape := hshape.recordOn
  rw [solve_eq] at hends
  obtain ⟨stages, h⟩ := Run.ends_minimize_iff.mp hends
  generalize out.1 = r, out.2 = t at h hf' hshape' ⊢
  cases h with
  | unusable _ => exact ⟨nofun, nofun, nofun⟩
  | empty _ _ => exact ⟨nofun, nofun, nofun⟩
  | unstarted _ _ h₁ =>
    refine ⟨fun x hx => ?_, ?_, nofun⟩
    · exact Run.mem_iterates_of_ends_iterate h₁ (List.mem_of_getElem? hx)
    · rw [Run.progress_of_ends_iterate h₁]
      exact nofun
  | descends hopt _ h₁ h₂ =>
    obtain ⟨hx, hit⟩ := Run.iterates_of_ends_iterate h₁
    have hprog := Run.progress_of_ends_iterate h₁
    rw [Transcript.objectiveIs_append_iff] at hf'
    rw [Transcript.keepsShape_append_iff] at hshape'
    have hopt := Options.fault?_eq_none_iff.mp hopt
    have hstart := @sound_start f method _ _ _ _ h₁ hf'.1
    rw [Transcript.iterates_append, Transcript.progress_append, hit, hprog]
    refine ⟨?_, ?_, ?_⟩
    · intro x h
      cases h
      rfl
    · have := h₂.decreases hopt hstart hf'.2 hshape'.2
      simpa [hx] using this
    · intro sol hsol
      refine ⟨by simpa using h₂.iterations_eq hsol, fun m hm hpos => ?_⟩
      have hle := h₂.iterations_le hopt hstart hf'.2 hshape'.2 hsol hm
      rw [Nat.cast_zero, sub_zero, hx] at hle
      have : (sol.iterations : ℝ) - 1 ≤ (f x₀ - m) / opt.deltaFTol := (le_div_iff₀ hpos).mpr hle
      linarith

/-- A quasi-Newton run on a sum of squares, with central differences. -/
theorem decreases_of_recordOn_sumOfSquares :
    let problem : Callbacks (StateM Unit) ℝ := {
      objective := fun x => pure (Vec.dot x x)
      constraints := fun _ => pure ⟨[], []⟩
      gradient := fun x h => pure (.central x h)
      update := fun b dx dg => pure (UpdateRule.bfgs b dx dg)
      progress := fun _ => pure ()
      note := fun _ => pure () }
    let out := (((quasiNewton.solve .default [3]).recordOn problem).run ()).1
    problem.ObjectiveIs (fun x => Vec.dot x x) ∧ problem.KeepsShape ∧
      ∀ sol, out.1 = .ok sol → (sol.iterations : ℝ) ≤ 1 + 9 / 1e-9 := by
  intro problem out
  have hf : problem.ObjectiveIs fun x => Vec.dot x x := fun _ _ => rfl
  have hshape : problem.KeepsShape := fun _ _ _ _ _ h => UpdateRule.sameShape_of_bfgs h
  refine ⟨hf, hshape, fun sol hsol => ?_⟩
  obtain ⟨-, -, h⟩ := decreases_of_recordOn hf hshape quasiNewton .default [3] ()
  have hle := (h sol hsol).2 0 Vec.dot_self_nonneg (by norm_num [Options.default])
  norm_num [Options.default] at hle ⊢
  exact hle

end Method

end Optimum

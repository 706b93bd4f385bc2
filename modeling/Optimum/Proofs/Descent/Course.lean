import Mathlib.Data.List.Intervals
import Optimum.Proofs.Descent.Methods
import Optimum.Scalar.Binary64

/-!
# The course of a descent

If neither the objective nor the estimator of gradients keeps a state, a run of a method is a
recursion: what it knows before iteration number `k` determines what it knows before the next one,
up to the answers of the update rule, which are taken from the run. `Course.stage` is that
recursion. It has no exit test and no end; a run follows it until a test is met.

## What is proved

* `Course.next_of_iterates` and `Course.absorbs`: an iteration of a run, and what the method learns
  from it, are one step of the course.
* `Run.Descends.certificate`: by induction, what the result of a run says of its course.
* `Method.certificate_of_recordOn`: the same for a run from its beginning. The result is the iterate
  of the course at which a test is met for the first time, its flag is that of the test, and the
  monitor and the update rule were called once for each iteration before, in order.
-/

namespace Optimum

open Scalar

variable {α : Type} [Scalar α]

/-! ### Evaluation without a state -/

/-- The step that a line search takes from `x` along `s` on the objective `f`. -/
def Step.taken (f : Vec α → α) (opt : Options α) (x s : Vec α) : Step α :=
  let inside : Found α :=
    (boundedBrent 0 1 opt.lineTol (opt.lineMaxFev - 1)).answered fun a => f (x.along s a)
  Step.choose inside.best (f x) (f (x.along s 1))

namespace Run

variable {f : Vec α → α} {est : Vec α → α → Plan α (Vec α)} {opt : Options α} {x s : Vec α}
  {t : Transcript α}

theorem taken_of_ends_lineSearch {step : Step α}
    (h : Ends (lineSearch opt x s (f x)) t (.ok step)) (hf : t.ObjectiveIs f) :
    step = Step.taken f opt x s := by
  obtain ⟨u, found, v, hu, -, -, rfl, rfl⟩ := ends_lineSearch_ok_iff.mp h
  simp only [Transcript.objectiveIs_append_iff] at hf
  obtain ⟨⟨⟨hline, -⟩, hfull⟩, -⟩ := hf
  have hv : v = f (x.along s 1) := hfull (x.along s 1, v) List.mem_cons_self
  have hfound := hu.eq_answered (fun a => f (x.along s a)) fun e he =>
    hline (x.along s e.question, e.answer) (by
      rw [evaluations_onLine]
      exact List.mem_map_of_mem he)
  rw [hv, hfound]
  rfl

/-- A gradient estimate. -/
theorem eq_of_ends_finiteGradient {h : α} {g : Vec α} (hend : Ends (finiteGradient x h) t (.ok g))
    (hf : t.ObjectiveIs f) (hest : t.EstimatorIs est) : g = (est x h).answered f := by
  obtain ⟨plan, u, g', hu, rfl, hcheck⟩ := ends_finiteGradient_iff.mp hend
  obtain ⟨-, -, rfl⟩ := checkGradient_eq_ok_iff.mp hcheck.symm
  have hplan : plan = est x h := hest x h plan List.mem_cons_self
  subst hplan
  refine hu.eq_answered f fun e he => hf (e.question, e.answer) ?_
  change _ ∈ Transcript.evaluations (ofPlan u)
  rw [Transcript.evaluations_ofPlan]
  exact List.mem_map_of_mem he

/-- An iterate, and the objective and the gradient there. -/
theorem eq_of_ends_iterate {h : α} {it : Iterate α} (hend : Ends (iterate x h) t (.ok it))
    (hf : t.ObjectiveIs f) (hest : t.EstimatorIs est) :
    it = ⟨x, f x, (est x h).answered f⟩ ∧ isFinite (f x) = true := by
  obtain ⟨v, t', g, hv, hg, rfl, rfl⟩ := ends_iterate_ok_iff.mp hend
  have hvalue : v = f x := hf (x, v) List.mem_cons_self
  have hgradient : g = (est x h).answered f := eq_of_ends_finiteGradient hg
    (fun p hp => hf p (List.mem_cons_of_mem _ hp))
    fun y s plan hplan => hest y s plan (List.mem_cons_of_mem _ hplan)
  subst hvalue hgradient
  exact ⟨rfl, hv⟩

end Run

/-! ### Learning -/

/-- The approximation after an answer of the update rule with which a run goes on. -/
def Strategy.corrected (b : Mat α) : Except (Failure α) (Mat α) → Mat α
  | .ok db => b.add db
  | .error _ => b

theorem Strategy.eq_corrected {b b' : Mat α} {answer : Except (Failure α) (Mat α)}
    (h : learned b answer = .ok b') : b' = corrected b answer := by
  rcases learned_eq_ok h with ⟨db, rfl, rfl⟩ | ⟨c, rfl, rfl⟩ <;> rfl

namespace Method

/-- What a method remembers after answers of the update rule. -/
def learned : (method : Method) → method.Memory α → List (Except (Failure α) (Mat α)) →
    method.Memory α
  | steepestDescent, memory, _ => memory
  | conjugateGradient, memory, _ => memory
  | quasiNewton, b, answers => answers.foldl Strategy.corrected b

/-- What a method asks of the update rule after a step. -/
def corrections : (method : Method) → method.Memory α → (dx dg : Vec α) →
    List (Mat α × Vec α × Vec α)
  | steepestDescent, _, _, _ => []
  | conjugateGradient, _, _, _ => []
  | quasiNewton, b, dx, dg => [(b, dx, dg)]

variable {method : Method} {n : Nat} {prev next : Iterate α} {memory memory' : method.Memory α}
  {t : Transcript α}

/-- A method asks the update rule at most once after a step, and learns from its answer. -/
theorem learned_of_ends_absorb
    (h : Run.Ends ((method.strategy n).absorb prev next memory) t (.ok memory')) :
    memory' = method.learned memory t.updates ∧
      t.corrections = method.corrections memory (next.x.sub prev.x) (next.g.sub prev.g) ∧
      t.updates.length = t.corrections.length := by
  cases method with
  | steepestDescent =>
    obtain ⟨rfl, hm⟩ := Run.ends_pure_iff.mp h
    exact ⟨Except.ok.inj hm, rfl, rfl⟩
  | conjugateGradient =>
    obtain ⟨rfl, hm⟩ := Run.ends_pure_iff.mp h
    exact ⟨Except.ok.inj hm, rfl, rfl⟩
  | quasiNewton =>
    obtain ⟨answer, rfl, hm⟩ := Strategy.ends_absorb_quasiNewton_iff.mp h
    have hnotes := Transcript.evaluates_written (Strategy.refusal answer)
    have hupdates : Transcript.updates (⟨.update memory (next.x.sub prev.x)
        (next.g.sub prev.g), answer⟩ :: Note.written (Strategy.refusal answer)) = [answer] :=
      congrArg (answer :: ·) hnotes.updates
    have hcorrections : Transcript.corrections (⟨.update memory (next.x.sub prev.x)
        (next.g.sub prev.g), answer⟩ :: Note.written (Strategy.refusal answer)) =
        [(memory, next.x.sub prev.x, next.g.sub prev.g)] :=
      congrArg (_ :: ·) hnotes.corrections
    rw [hupdates, hcorrections]
    exact ⟨Strategy.eq_corrected hm.symm, rfl, rfl⟩

end Method

/-! ### The course -/

/-- What determines the course of a method: an objective and an estimator of gradients, both
without a state, the options, the starting point, and the answers of the update rule. -/
structure Course (α : Type) (method : Method) where
  /-- The objective. -/
  f : Vec α → α
  /-- The estimator of gradients. -/
  est : Vec α → α → Plan α (Vec α)
  /-- The options. -/
  opt : Options α
  /-- The starting point. -/
  x₀ : Vec α
  /-- The answers of the update rule, in order. -/
  answers : List (Except (Failure α) (Mat α))

namespace Course

variable {method : Method}

/-- The gradient estimate at a point. -/
def grad (c : Course α method) (x : Vec α) : Vec α := (c.est x c.opt.fdStep).answered c.f

/-- What is known at a point. -/
def iterate (c : Course α method) (x : Vec α) : Iterate α := ⟨x, c.f x, c.grad x⟩

/-- What a method knows before iteration number `k`, from zero. -/
def stage (c : Course α method) : Nat → Stage α (method.Memory α)
  | 0 => ⟨0, c.iterate c.x₀, method.initial c.x₀.length⟩
  | k + 1 =>
    let σ := c.stage k
    let s := Run.unitDirection (method.strategy c.x₀.length) k σ.it σ.memory
    let memory := ((method.strategy c.x₀.length).direction k σ.it σ.memory).2
    ⟨k + 1, c.iterate (σ.it.x.along s (Step.taken c.f c.opt σ.it.x s).alpha),
      method.learned memory c.answers[k]?.toList⟩

variable (c : Course α method)

/-- The iterate number `k`, from zero: the starting point, and then the point to which iteration
number `k`, counted from one, leads. -/
def x (k : Nat) : Vec α := (c.stage k).it.x

/-- The norm of the gradient estimate at iterate `k`. -/
def gradNorm (k : Nat) : α := Vec.norm (c.grad (c.x k))

/-- The distance from the iterate before to iterate `k`. -/
def stepSize (k : Nat) : α := Vec.distance (c.x k) (c.x (k - 1))

/-- The change of the objective from the iterate before to iterate `k`. -/
def change (k : Nat) : α := magnitude (c.f (c.x k) - c.f (c.x (k - 1)))

/-- The unit direction in which iterate `k` is looked for. -/
def direction (k : Nat) : Vec α :=
  let σ := c.stage (k - 1)
  Run.unitDirection (method.strategy c.x₀.length) (k - 1) σ.it σ.memory

/-- The step length that the line search finds in that direction. -/
def alpha (k : Nat) : α := (Step.taken c.f c.opt (c.x (k - 1)) (c.direction k)).alpha

/-- What the monitor is told of iteration number `k`, counted from one. -/
def record (k : Nat) : Progress α :=
  ⟨k, c.f (c.x k), c.gradNorm k, c.stepSize k, c.alpha k⟩

/-- The approximation of the inverse Hessian after `k` answers of the update rule: the identity and
the changes that it gave. -/
def approximation (k : Nat) : Mat α :=
  (c.answers.take k).foldl Strategy.corrected (Mat.identity c.x₀.length)

/-- What the update rule is asked after iteration number `k`, counted from one, if the run goes
on. -/
def corrections : {method : Method} → Course α method → Nat → List (Mat α × Vec α × Vec α)
  | .steepestDescent, _, _ => []
  | .conjugateGradient, _, _ => []
  | .quasiNewton, c, k => [(c.approximation (k - 1), (c.x k).sub (c.x (k - 1)),
      (c.grad (c.x k)).sub (c.grad (c.x (k - 1))))]

theorem stage_k (k : Nat) : (c.stage k).k = k := by cases k <;> rfl

theorem stage_it (k : Nat) : (c.stage k).it = c.iterate (c.x k) := by cases k <;> rfl

theorem memory_eq_approximation (c : Course α .quasiNewton) (k : Nat) :
    (c.stage k).memory = c.approximation k := by
  induction k with
  | zero => rfl
  | succ k ih =>
    rw [approximation, List.take_add_one, List.foldl_append, ← approximation, ← ih]
    rfl

/-- What a method asks at a stage is what the course says. -/
theorem corrections_succ (k : Nat) :
    c.corrections (k + 1) = method.corrections
      ((method.strategy c.x₀.length).direction k (c.stage k).it (c.stage k).memory).2
      ((c.x (k + 1)).sub (c.x k)) ((c.grad (c.x (k + 1))).sub (c.grad (c.x k))) := by
  cases method with
  | steepestDescent => rfl
  | conjugateGradient => rfl
  | quasiNewton =>
    rw [corrections, Nat.add_sub_cancel, ← memory_eq_approximation]
    rfl

end Course

/-! ### One step of a run -/

namespace Course

variable {method : Method} {c : Course α method} {k : Nat} {t : Transcript α}

/-- **An iteration of a run is a step of the course.** -/
theorem next_of_iterates {i : Iteration α (method.Memory α)}
    (h : Run.Iterates (method.strategy c.x₀.length) c.opt (c.stage k) t (.ok i))
    (hf : t.ObjectiveIs c.f) (hest : t.EstimatorIs c.est) :
    i.next = c.iterate (c.x (k + 1)) ∧ isFinite (c.f (c.x (k + 1))) = true ∧
      i.memory =
        ((method.strategy c.x₀.length).direction k (c.stage k).it (c.stage k).memory).2 ∧
      i.progress = c.record (k + 1) := by
  rw [Run.Iterates, stage_k] at h
  obtain ⟨t₁, t₂, step, next, h₁, h₂, rfl, rfl⟩ := Run.ends_iteration_ok_iff.mp h
  simp only [Transcript.objectiveIs_append_iff, Transcript.estimatorIs_append_iff] at hf hest
  have hvalue : (c.stage k).it.f = c.f (c.stage k).it.x := by rw [stage_it]; rfl
  rw [hvalue] at h₁
  obtain rfl := Run.taken_of_ends_lineSearch h₁ hf.1.1
  obtain ⟨rfl, hfinite⟩ := Run.eq_of_ends_iterate h₂ hf.1.2 hest.1.2
  exact ⟨rfl, hfinite, rfl, rfl⟩

/-- The answers that the update rule has still to give after `k` iterations. A method other than
quasi-Newton never calls it. -/
def Awaits (c : Course α method) (k : Nat) (answers : List (Except (Failure α) (Mat α))) : Prop :=
  method = .quasiNewton → answers = c.answers.drop k

/-- **What a method learns from an iteration is what the course says.** -/
theorem absorbs {memory : method.Memory α} {rest : List (Except (Failure α) (Mat α))}
    (h : Run.Ends ((method.strategy c.x₀.length).absorb (c.iterate (c.x k))
      (c.iterate (c.x (k + 1)))
      ((method.strategy c.x₀.length).direction k (c.stage k).it (c.stage k).memory).2) t
      (.ok memory))
    (hanswers : c.Awaits k (t.updates ++ rest)) :
    memory = (c.stage (k + 1)).memory ∧ t.corrections = c.corrections (k + 1) ∧
      c.Awaits (k + 1) rest := by
  obtain ⟨rfl, hasked, hlength⟩ := Method.learned_of_ends_absorb h
  rw [corrections_succ]
  cases method with
  | steepestDescent => exact ⟨rfl, hasked, nofun⟩
  | conjugateGradient => exact ⟨rfl, hasked, nofun⟩
  | quasiNewton =>
    rw [hasked] at hlength
    obtain ⟨answer, hanswer⟩ := List.length_eq_one_iff.mp hlength
    have hdrop := hanswers rfl
    rw [hanswer, List.drop_eq_getElem?_toList_append] at hdrop
    have hfirst : c.answers[k]? = some answer := by
      have := congrArg List.head? (hanswers rfl)
      rw [hanswer, List.head?_drop] at this
      exact this.symm
    refine ⟨?_, hasked, fun _ => ?_⟩
    · rw [hanswer, stage, hfirst]
      rfl
    · rw [hfirst] at hdrop
      exact (List.cons.inj hdrop).2

end Course

/-! ### What a result certifies -/

/-- The flag is that of the first test met: of the gradient, then the step, then the objective. -/
inductive Options.FirstMet (opt : Options α) (gradNorm stepNorm deltaF : α) : ExitFlag → Prop where
  /-- The gradient is within its tolerance. -/
  | gradient : gradNorm ≤ opt.gradTol → FirstMet opt gradNorm stepNorm deltaF .gradientTolerance
  /-- The step is, and the gradient is not. -/
  | step : ¬ gradNorm ≤ opt.gradTol → stepNorm ≤ opt.deltaXTol →
      FirstMet opt gradNorm stepNorm deltaF .stepTolerance
  /-- The change of the objective is, and the others are not. -/
  | objective : ¬ gradNorm ≤ opt.gradTol → ¬ stepNorm ≤ opt.deltaXTol → deltaF ≤ opt.deltaFTol →
      FirstMet opt gradNorm stepNorm deltaF .objectiveTolerance

theorem Options.FirstMet.of_toleranceMet {opt : Options α} {gradNorm stepNorm deltaF : α}
    {flag : ExitFlag} (h : opt.toleranceMet gradNorm stepNorm deltaF = some flag) :
    opt.FirstMet gradNorm stepNorm deltaF flag := by
  unfold toleranceMet at h
  split_ifs at h with h₁ h₂ h₃
  · cases h
    exact .gradient h₁
  · cases h
    exact .step h₁ h₂
  · cases h
    exact .objective h₁ h₂ h₃

theorem Options.FirstMet.ne_maxIterations {opt : Options α} {gradNorm stepNorm deltaF : α}
    {flag : ExitFlag} (h : opt.FirstMet gradNorm stepNorm deltaF flag) :
    flag ≠ .maxIterations := by
  cases h <;> exact nofun

namespace Course

variable {method : Method}

/-- No exit test is met at iterate `k`. -/
structure Unmet (c : Course α method) (k : Nat) : Prop where
  /-- The gradient is beyond its tolerance. -/
  gradient : ¬ c.gradNorm k ≤ c.opt.gradTol
  /-- So is the step. -/
  step : ¬ c.stepSize k ≤ c.opt.deltaXTol
  /-- So is the change of the objective. -/
  objective : ¬ c.change k ≤ c.opt.deltaFTol

/-- What a solution says of the course from iterate `k` on, the iterates `points` that the run
passed, what it told the monitor, and what it asked of the update rule. -/
structure Certificate (c : Course α method) (k : Nat) (points : List (Vec α))
    (records : List (Progress α)) (asked : List (Mat α × Vec α × Vec α)) (sol : Solution α) :
    Prop where
  /-- At least one iteration was made. -/
  later : k < sol.iterations
  /-- No more than allowed were made. -/
  within : sol.iterations ≤ c.opt.maxIt
  /-- The run passed the iterates of the course. -/
  points : points = (List.Ico k (sol.iterations + 1)).map c.x
  /-- The monitor was told of each iteration. -/
  records : records = (List.Ico (k + 1) (sol.iterations + 1)).map c.record
  /-- The update rule was asked after each iteration but the last. -/
  asked : asked = (List.Ico (k + 1) sol.iterations).flatMap c.corrections
  /-- The solution is the last iterate. -/
  point : sol.x = c.x sol.iterations
  /-- Its value is that of the objective. -/
  value : sol.f = c.f sol.x
  /-- The value is finite. -/
  finite : isFinite sol.f = true
  /-- The flag says whether the budget is spent. -/
  exhausted : sol.exitFlag = .maxIterations ↔ sol.iterations = c.opt.maxIt
  /-- If it is not, the flag says which test was met first. -/
  met : sol.iterations ≠ c.opt.maxIt → c.opt.FirstMet (c.gradNorm sol.iterations)
    (c.stepSize sol.iterations) (c.change sol.iterations) sol.exitFlag
  /-- No test was met before. -/
  unmet : ∀ j, k < j → j < sol.iterations → c.Unmet j

variable {c : Course α method} {k left : Nat} {i : Iteration α (method.Memory α)}

/-- The exit test after iteration number `k + 1` is made on the course. -/
theorem exitAfter_succ (hnext : i.next = c.iterate (c.x (k + 1)))
    (hprogress : i.progress = c.record (k + 1)) :
    c.opt.exitAfter (left + 1) (c.stage k).it i =
      c.opt.toleranceMet (c.gradNorm (k + 1)) (c.stepSize (k + 1)) (c.change (k + 1)) := by
  rw [Options.exitAfter, hnext, hprogress, stage_it]
  rfl

/-- The certificate of a run that ends with iteration number `k + 1`. -/
theorem Certificate.last {flag : ExitFlag} (hleft : k + left + 1 = c.opt.maxIt)
    (hnext : i.next = c.iterate (c.x (k + 1))) (hprogress : i.progress = c.record (k + 1))
    (hfinite : isFinite (c.f (c.x (k + 1))) = true)
    (hflag : c.opt.exitAfter left (c.stage k).it i = some flag) :
    c.Certificate k [c.x k, c.x (k + 1)] [c.record (k + 1)] []
      ⟨i.next.x, i.next.f, flag, k + 1⟩ := by
  have hpoints : List.Ico k (k + 1 + 1) = [k, k + 1] := by
    rw [List.Ico.eq_cons (by omega), List.Ico.succ_singleton]
  have hexit : (flag = .maxIterations ↔ k + 1 = c.opt.maxIt) ∧
      (k + 1 ≠ c.opt.maxIt → c.opt.FirstMet (c.gradNorm (k + 1)) (c.stepSize (k + 1))
        (c.change (k + 1)) flag) := by
    cases left with
    | zero =>
      cases hflag
      exact ⟨⟨fun _ => hleft, fun _ => rfl⟩, fun hne => absurd hleft hne⟩
    | succ left =>
      rw [exitAfter_succ hnext hprogress] at hflag
      have hmet := Options.FirstMet.of_toleranceMet hflag
      exact ⟨⟨fun h => absurd h hmet.ne_maxIterations, fun h => by omega⟩, fun _ => hmet⟩
  rw [hnext]
  exact {
    later := Nat.lt_succ_self k
    within := by
      change k + 1 ≤ c.opt.maxIt
      omega
    points := by rw [hpoints]; rfl
    records := by rw [List.Ico.succ_singleton]; rfl
    asked := by rw [List.Ico.self_empty]; rfl
    point := rfl
    value := rfl
    finite := hfinite
    exhausted := hexit.1
    met := hexit.2
    unmet := fun j hj hj' => absurd hj' (Nat.not_lt.mpr hj) }

/-- The certificate of a run that goes on after iteration number `k + 1`. -/
theorem Certificate.cons {points : List (Vec α)} {records : List (Progress α)}
    {asked : List (Mat α × Vec α × Vec α)} {sol : Solution α}
    (h : c.Certificate (k + 1) points records asked sol) (hunmet : c.Unmet (k + 1)) :
    c.Certificate k (c.x k :: points) (c.record (k + 1) :: records)
      (c.corrections (k + 1) ++ asked) sol := by
  have hlater := h.later
  exact { h with
    later := Nat.lt_of_succ_lt hlater
    points := by rw [List.Ico.eq_cons (by omega), h.points]; rfl
    records := by rw [List.Ico.eq_cons (by omega), h.records]; rfl
    asked := by rw [List.Ico.eq_cons hlater, h.asked]; rfl
    unmet := fun j hj hj' => by
      rcases Nat.eq_or_lt_of_le (Nat.succ_le_of_lt hj) with rfl | hj
      · exact hunmet
      · exact h.unmet j hj hj' }

end Course

/-! ### Runs -/

variable {method : Method}

namespace Run

variable {left : Nat} {t : Transcript α}

/-- **The result of a descent that follows a course certifies it.** -/
theorem Descends.certificate {c : Course α method} {σ : Stage α (method.Memory α)}
    {stages : List (Stage α (method.Memory α))} {r : Except (Failure α) (Solution α)}
    {sol : Solution α} {k : Nat}
    (h : Descends (method.strategy c.x₀.length) c.opt left σ t stages r) (hr : r = .ok sol)
    (hσ : σ = c.stage k) (hleft : k + left + 1 = c.opt.maxIt) (hf : t.ObjectiveIs c.f)
    (hest : t.EstimatorIs c.est) (hanswers : c.Awaits k t.updates) :
    c.Certificate k (c.x k :: t.iterates) t.progress t.corrections sol := by
  induction h generalizing k with
  | fails _ => cases hr
  | refuses _ _ _ => cases hr
  | @stops _ _ _ i _ h₁ hflag =>
    cases hr
    subst hσ
    rw [Transcript.objectiveIs_append_iff] at hf
    rw [Transcript.estimatorIs_append_iff] at hest
    obtain ⟨hnext, hfinite, -, hprogress⟩ := Course.next_of_iterates h₁ hf.1 hest.1
    obtain ⟨hit, hprog⟩ := views_of_ends_iteration h₁
    have hcert := Course.Certificate.last hleft hnext hprogress hfinite hflag
    have hpoint : i.next.x = c.x (k + 1) := congrArg Iterate.x hnext
    simpa [hit, hprog, hprogress, hpoint, (evaluates_of_ends_iteration h₁).corrections,
      (Transcript.evaluates_written _).corrections, Course.stage_k] using hcert
  | @goesOn _ _ _ _ _ i _ _ _ h₁ hnone h₂ _ ih =>
    subst hσ
    simp only [Transcript.objectiveIs_append_iff, Transcript.estimatorIs_append_iff] at hf hest
    obtain ⟨hnext, -, hmemory, hprogress⟩ := Course.next_of_iterates h₁ hf.1.1 hest.1.1
    obtain ⟨hit, hprog⟩ := views_of_ends_iteration h₁
    have haside := Method.aside_absorb h₂
    rw [Course.exitAfter_succ hnext hprogress, Options.toleranceMet_eq_none_iff] at hnone
    rw [Course.stage_it, hnext, hmemory] at h₂
    rw [Transcript.updates_append, Transcript.updates_append,
      (evaluates_of_ends_iteration h₁).updates, List.nil_append] at hanswers
    obtain ⟨hstage, hasked, hrest⟩ := Course.absorbs h₂ hanswers
    have hcert := ih hr (k := k + 1)
      (by rw [Course.stage_k, hnext, hstage]; rfl) (by omega) hf.2 hest.2 hrest
    have := hcert.cons ⟨hnone.1, hnone.2.1, hnone.2.2⟩
    have hpoint : i.next.x = c.x (k + 1) := congrArg Iterate.x hnext
    simpa [hit, hprog, hprogress, hpoint, haside.iterates, haside.progress, hasked,
      (evaluates_of_ends_iteration h₁).corrections] using this

end Run

namespace Method

/-- **The result of a run that follows a course certifies it**, from the starting point on. -/
theorem certificate_of_minimizes {c : Course α method} {t : Transcript α}
    {stages : List (Stage α (method.Memory α))} {r : Except (Failure α) (Solution α)}
    {sol : Solution α}
    (h : Run.Minimizes (method.strategy c.x₀.length) (method.initial c.x₀.length) c.opt c.x₀ t
      stages r)
    (hr : r = .ok sol) (hf : t.ObjectiveIs c.f) (hest : t.EstimatorIs c.est)
    (hanswers : t.updates = c.answers) :
    c.Certificate 0 t.iterates t.progress t.corrections sol := by
  cases h with
  | unusable _ => cases hr
  | empty _ _ => cases hr
  | unstarted _ _ _ => cases hr
  | descends hopt _ h₁ h₂ =>
    rw [Transcript.objectiveIs_append_iff] at hf
    rw [Transcript.estimatorIs_append_iff] at hest
    have hevaluates := Run.evaluates_of_ends_iterate h₁
    rw [Transcript.updates_append, hevaluates.updates, List.nil_append] at hanswers
    obtain ⟨rfl, -⟩ := Run.eq_of_ends_iterate h₁ hf.1 hest.1
    obtain ⟨-, hit⟩ := Run.iterates_of_ends_iterate h₁
    have hmaxIt := (Options.fault?_eq_none_iff.mp hopt).maxIt
    have hcert := h₂.certificate hr (k := 0) rfl (by omega) hf.2 hest.2 fun _ => hanswers
    rw [Transcript.iterates_append, Transcript.progress_append, Transcript.corrections_append,
      hit, Run.progress_of_ends_iterate h₁, hevaluates.corrections]
    exact hcert

/-- **The result of a run is certified by its flag**, if neither the objective nor the estimator of
gradients keeps a state, whatever the update rule and the monitor do. With `K` iterations, the
solution is iterate `K` of the course that starts at `x₀`, and its value is finite and that of the
objective; `K` is at least one and at most the number allowed; the flag says that the budget is
spent exactly if `K` is that number, and which test was met first otherwise; no test was met before;
the monitor was told of iterations `1` to `K`, and the update rule of a quasi-Newton method was
asked after iterations `1` to `K - 1`. The solution is as long as `x₀`, for a quasi-Newton method
provided that the rule leaves rows. -/
theorem certificate_of_recordOn {σ : Type} {problem : Callbacks (StateM σ) α} {f : Vec α → α}
    {est : Vec α → α → Plan α (Vec α)} (hf : problem.ObjectiveIs f) (hest : problem.EstimatorIs est)
    (method : Method) (opt : Options α) (x₀ : Vec α) (s : σ) :
    let out := (((method.solve opt x₀).recordOn problem).run s).1
    let c : Course α method := ⟨f, est, opt, x₀, out.2.updates⟩
    ∀ sol, out.1 = .ok sol →
      c.Certificate 0 out.2.iterates out.2.progress out.2.corrections sol ∧
      ((method = .quasiNewton → out.2.KeepsRows) → sol.x.length = x₀.length) := by
  intro out c sol hsol
  have hends : Run.Ends (method.solve opt x₀) out.2 out.1 := Run.ends_recordOn _ s
  constructor
  · rw [solve_eq] at hends
    obtain ⟨stages, h⟩ := Run.ends_minimize_iff.mp hends
    exact certificate_of_minimizes (c := c) h hsol hf.recordOn hest.recordOn rfl
  · intro hrows
    exact (length_of_ends hends hrows).2 sol hsol

/-- A sum of squares with forward differences, and an update rule that finds no curvature when it is
called for the first time, and gives a change of zero afterwards. -/
def hesitantRule : Callbacks (StateM Bool) Float where
  objective x := pure (Vec.dot x x)
  constraints _ := pure ⟨[], []⟩
  gradient x h := pure (.forward x h)
  update b _ _ called := (if called then .ok b.cleared else .error (.illConditionedUpdate 0), true)
  progress _ := pure ()
  note _ := pure ()

/-- A run of three iterations on it. -/
theorem certificate_of_recordOn_hesitantRule :
    let f : Vec Float → Float := fun x => Vec.dot x x
    let opt : Options Float := { Options.default with lineMaxFev := 2 }
    let out := (((quasiNewton.solve opt [3]).recordOn hesitantRule).run false).1
    let c : Course Float .quasiNewton := ⟨f, Plan.forward, opt, [3], out.2.updates⟩
    hesitantRule.ObjectiveIs f ∧ hesitantRule.EstimatorIs Plan.forward ∧ out.2.KeepsRows ∧
      ∃ sol, out.1 = .ok sol ∧ sol.iterations = 3 ∧ sol.x.length = 1 ∧
        c.Certificate 0 out.2.iterates out.2.progress out.2.corrections sol := by
  intro f opt out c
  have hf : hesitantRule.ObjectiveIs f := fun _ _ => rfl
  have hest : hesitantRule.EstimatorIs Plan.forward := fun _ _ _ => rfl
  have hshape : hesitantRule.KeepsShape := by
    rintro b dx dg (_ | _) db h
    · cases h
    · cases h
      exact b.sameShape_cleared
  have hrows : out.2.KeepsRows := hshape.recordOn.keepsRows
  have hrun : out.1.toOption.map (·.iterations) = some 3 := by decide +kernel
  obtain ⟨sol, hsol, hiterations⟩ := Option.map_eq_some_iff.mp hrun
  have hok : out.1 = .ok sol := by
    revert hsol
    cases out.1 with
    | error e => exact nofun
    | ok b =>
      intro hsol
      cases hsol
      rfl
  obtain ⟨hcert, hlength⟩ := certificate_of_recordOn hf hest quasiNewton opt [3] false sol hok
  exact ⟨hf, hest, hrows, sol, hok, hiterations, hlength fun _ => hrows, hcert⟩

/-- A sum of squares with forward differences, and an update rule whose changes have one column and no
rows. -/
def columnRule : Callbacks (StateM Unit) Float where
  objective x := pure (Vec.dot x x)
  constraints _ := pure ⟨[], []⟩
  gradient x h := pure (.forward x h)
  update _ _ _ := pure (.ok (.ofFn 0 1 fun _ _ => 0))
  progress _ := pure ()
  note _ := pure ()

/-- With changes that have no rows a run may lose the coordinates of its point: an approximation of
one row and one column, added to a matrix of one column and no rows, has no rows. -/
theorem not_certificate_of_recordOn_columnRule :
    let f : Vec Float → Float := fun x => Vec.dot x x
    let opt : Options Float := { Options.default with lineMaxFev := 2 }
    let out := (((quasiNewton.solve opt [3]).recordOn columnRule).run ()).1
    columnRule.ObjectiveIs f ∧ columnRule.EstimatorIs Plan.forward ∧ opt.validate = .ok () ∧
      ∃ sol, out.1 = .ok sol ∧ sol.x.length ≠ ([3] : Vec Float).length := by
  intro f opt out
  have hopt : opt.validate = .ok () := Options.validate_eq_ok_iff.mpr (by decide)
  have hrun : Run.failure? out.1 = none ∧ out.1.toOption.map (·.x.length) = some 0 := by
    decide +kernel
  obtain ⟨sol, hsol⟩ := Run.failure?_eq_none_iff.mp hrun.1
  have hzero : sol.x.length = 0 := by simpa [hsol, Except.toOption] using hrun.2
  refine ⟨fun _ _ => rfl, fun _ _ _ => rfl, hopt, sol, hsol, ?_⟩
  rw [hzero]
  exact Nat.zero_ne_one

end Method

end Optimum

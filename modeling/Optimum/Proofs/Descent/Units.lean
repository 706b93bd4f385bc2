import Optimum.Proofs.Bracket.Units
import Optimum.Proofs.Descent.Decrease
import Optimum.Proofs.Descent.Success
import Optimum.Proofs.Vector.Euclidean

/-!
# Descents and the units of the objective

Steepest descent and conjugate gradients use the values of the objective to compare them, and in
difference quotients; a direction is made of quotients and has its length made one before it is
followed. So in exact arithmetic a run on `c f + d`, with `0 < c`, is the run on `f` with values on
another scale, if the tolerances on the gradient and on the change of the objective are scaled too.
A quasi-Newton method is not like that, as an inverse Hessian has units.

## What is proved

* `Run.Rescales` relates a run to one on another scale, with a rule for each way of putting runs
  together; there is one lemma for each part of a descent.
* `Strategy.Rescales`: what a method has to satisfy; steepest descent (`rescales_steepest`) and
  conjugate gradients (`rescales_fletcherReeves`) do.
* `Run.Rescales.minimize`: the induction over the loop.
* `Method.unitless_of_recordOn`: the recorded runs of the two methods on `f` and on `c f + d`.
-/

namespace Optimum

open Scalar

variable {c d : ℝ}

/-! ### Vectors on another scale -/

namespace Vec

/-- The vector multiplied by a scalar. -/
def scaleUp (a : Vec ℝ) (c : ℝ) : Vec ℝ := a.map (c * ·)

@[simp] theorem length_scaleUp (a : Vec ℝ) (c : ℝ) : (a.scaleUp c).length = a.length :=
  List.length_map _

theorem neg_scaleUp (a : Vec ℝ) (c : ℝ) : (a.scaleUp c).neg = a.neg.scaleUp c := by
  simp [neg, scaleUp]

theorem dot_scaleUp (a b : Vec ℝ) (c : ℝ) : dot (a.scaleUp c) (b.scaleUp c) = c * c * dot a b := by
  induction a generalizing b with
  | nil => simp [scaleUp]
  | cons x a ih =>
    cases b with
    | nil => simp [scaleUp]
    | cons y b =>
      have := ih b
      simp only [scaleUp, List.map_cons, dot_cons] at this ⊢
      rw [this]
      ring

theorem norm_scaleUp (hc : 0 < c) (a : Vec ℝ) : norm (a.scaleUp c) = c * norm a := by
  rw [norm, dot_scaleUp, sqrt_real, Real.sqrt_mul (mul_self_nonneg c), Real.sqrt_mul_self hc.le]
  rfl

/-- A direction of unit length does not depend on the scale. -/
theorem normalize_scaleUp (hc : 0 < c) (a : Vec ℝ) : (a.scaleUp c).normalize = a.normalize := by
  have hpos : 0 < norm (a.scaleUp c) ↔ 0 < norm a := by
    rw [norm_scaleUp hc, mul_pos_iff_of_pos_left hc]
  by_cases h : 0 < norm a
  · rw [normalize, normalize, if_pos h, if_pos (hpos.mpr h), norm_scaleUp hc, scaleDown, scaleDown,
      scaleUp, List.map_map]
    exact List.map_congr_left fun v _ => mul_div_mul_left v (norm a) hc.ne'
  · have hzero : a.IsZero :=
      (norm_eq_zero_iff a).mp (le_antisymm (not_lt.mp h) (norm_nonneg a))
    have hsame : a.scaleUp c = a := by
      refine (List.map_congr_left fun v hv => ?_).trans a.map_id
      rw [hzero v hv, mul_zero, id]
    rw [hsame]

end Vec

/-! ### What a run handles, on another scale -/

/-- What a monitor is told, on another scale. -/
def Progress.rescale (c d : ℝ) (p : Progress ℝ) : Progress ℝ :=
  { p with objective := c * p.objective + d, gradNorm := c * p.gradNorm }

/-- A note on another scale. -/
def Note.rescale (c d : ℝ) : Note ℝ → Note ℝ
  | .searchDone x f evaluations => .searchDone x (c * f + d) evaluations
  | .iteration p => .iteration (p.rescale c d)
  | n => n

/-- A step on another scale. -/
def Step.rescale (c d : ℝ) (step : Step ℝ) : Step ℝ := { step with f := c * step.f + d }

/-- An iterate on another scale. -/
def Iterate.rescale (c d : ℝ) (it : Iterate ℝ) : Iterate ℝ := ⟨it.x, c * it.f + d, it.g.scaleUp c⟩

/-- A solution on another scale. -/
def Solution.rescale (c d : ℝ) (sol : Solution ℝ) : Solution ℝ := { sol with f := c * sol.f + d }

/-- Options with the tolerances that have the units of the objective on another scale. -/
def Options.rescale (c : ℝ) (opt : Options ℝ) : Options ℝ :=
  { opt with gradTol := c * opt.gradTol, deltaFTol := c * opt.deltaFTol }

/-- An iteration on another scale, where `ρ` says what becomes of the memory. -/
def Iteration.rescale {S : Type} (c d : ℝ) (ρ : S → S) (i : Iteration ℝ S) : Iteration ℝ S where
  direction := i.direction.scaleUp c
  step := i.step.rescale c d
  next := i.next.rescale c d
  memory := ρ i.memory
  progress := i.progress.rescale c d

/-- The choice between three candidates does not depend on the scale. -/
theorem Step.choose_rescale (hc : 0 < c) (inside : Sample ℝ) (f₀ f₁ : ℝ) :
    choose (inside.rescale c d) (c * f₀ + d) (c * f₁ + d) = (choose inside f₀ f₁).rescale c d := by
  have hinside : ∀ v : ℝ, c * v + d < (inside.rescale c d).f ↔ v < inside.f := fun v =>
    rescale_lt_rescale_iff d hc
  by_cases h₀ : f₀ < inside.f
  · by_cases h₁ : f₁ < f₀
    · simp [choose, rescale, hinside, rescale_lt_rescale_iff d hc, h₀, h₁]
    · simp [choose, rescale, hinside, rescale_lt_rescale_iff d hc, h₀, h₁]
  · by_cases h₁ : f₁ < inside.f
    · simp [choose, rescale, hinside, h₀, h₁]
    · simp only [choose, rescale, hinside, if_neg h₀, if_neg h₁]
      rfl

theorem Found.notes_rescale (found : Found ℝ) :
    (found.rescale c d).notes = found.notes.map (Note.rescale c d) := by
  cases h : found.stopped <;> simp [notes, Found.rescale, Sample.rescale, Note.rescale, h]

namespace Options

variable {opt : Options ℝ}

theorem toleranceMet_rescale (hc : 0 < c) (opt : Options ℝ) (gradNorm stepNorm deltaF : ℝ) :
    (opt.rescale c).toleranceMet (c * gradNorm) stepNorm (c * deltaF) =
      opt.toleranceMet gradNorm stepNorm deltaF := by
  simp only [toleranceMet, rescale, mul_le_mul_iff_right₀ hc]

theorem fault?_rescale (hc : 0 < c) (h : opt.fault? = none) : (opt.rescale c).fault? = none := by
  have hopt := fault?_eq_none_iff.mp h
  refine fault?_eq_none_iff.mpr { hopt with gradTol := ?_, deltaFTol := ?_ }
  · exact mul_nonneg hc.le hopt.gradTol
  · exact mul_nonneg hc.le hopt.deltaFTol

end Options

/-! ### Plans -/

namespace Plan

open Mirror

/-- An estimator whose estimates scale with the objective. -/
def Scales (c d : ℝ) (est : Vec ℝ → ℝ → Plan ℝ (Vec ℝ)) : Prop :=
  ∀ x h, (rescaling c d).Reflects (Vec.scaleUp · c) (est x h) (est x h)

/-- One plan after another. -/
theorem reflects_mapM {ι : Type} {quotient quotient' : ι → Plan ℝ ℝ}
    (h : ∀ i, (rescaling c d).Reflects (c * ·) (quotient i) (quotient' i)) (is : List ι) :
    (rescaling c d).Reflects (Vec.scaleUp · c) (is.mapM quotient) (is.mapM quotient') := by
  induction is with
  | nil => exact .done []
  | cons i is ih =>
    rw [List.mapM_cons, List.mapM_cons]
    exact (h i).bind fun v => ih.bind fun g => .done (v :: g)

/-- A difference quotient scales with the values. -/
theorem reflects_quotient (v w h : ℝ) :
    (rescaling c d).Reflects (c * ·) (Pure.pure ((v - w) / h) : Plan ℝ ℝ)
      (Pure.pure ((c * v + d - (c * w + d)) / h)) := by
  have hquotient : (c * v + d - (c * w + d)) / h = c * ((v - w) / h) := by
    rw [add_sub_add_right_eq_sub, ← mul_sub, mul_div_assoc]
  rw [hquotient]
  exact .done _

theorem scales_forward : Scales c d forward := fun x h =>
  .ask trivial fun f₀ _ => reflects_mapM (fun _ => .ask trivial fun f₁ _ =>
    reflects_quotient f₁ f₀ h) (perturbed (· + h) x)

theorem scales_central : Scales c d central := fun x h =>
  reflects_mapM (fun _ => .ask trivial fun f₁ _ => .ask trivial fun f₂ _ =>
    reflects_quotient f₁ f₂ (2.0 * h)) ((perturbed (· + h) x).zip (perturbed (· - h) x))

end Plan

/-! ### Runs -/

namespace Run

variable {est : Vec ℝ → ℝ → Plan ℝ (Vec ℝ)} {β γ δ ε S : Type}

/-- The calls of a run on another scale. Gradients are estimated by `est`, and neither constraints
nor an update rule are called. -/
def rescaling (est : Vec ℝ → ℝ → Plan ℝ (Vec ℝ)) (c d : ℝ) : Mirror (Answer ℝ) where
  question
    | .progress p => .progress (p.rescale c d)
    | .note n => .note (n.rescale c d)
    | q => q
  answer
    | .objective _, v => c * v + d
    | .constraints _, r => r
    | .gradient _ _, plan => plan
    | .update _ _ _, a => a
    | .progress _, a => a
    | .note _, a => a
  Asks
    | .constraints _ => False
    | .update _ _ _ => False
    | _ => True
  Admits
    | .gradient x h, plan => plan = est x h
    | _, _ => True

/-- The second run is the first one on another scale, and so is its result, by `g`. -/
def Rescales (est : Vec ℝ → ℝ → Plan ℝ (Vec ℝ)) (c d : ℝ) (g : β → γ) (run : Run ℝ β)
    (run' : Run ℝ γ) : Prop :=
  (rescaling est c d).Reflects (Except.map g) run.run run'.run

namespace Rescales

variable {g : β → γ} {h : δ → ε}

theorem pure (b : β) : Rescales est c d g (Pure.pure b) (Pure.pure (g b)) :=
  Mirror.Reflects.done (M := rescaling est c d) (g := Except.map g) (.ok b)

theorem throw (e : Failure ℝ) :
    Rescales est c d g (MonadExcept.throw e) (MonadExcept.throw e) :=
  Mirror.Reflects.done (M := rescaling est c d) (g := Except.map g) (.error e)

theorem bind {run : Run ℝ β} {run' : Run ℝ γ} {f : β → Run ℝ δ} {f' : γ → Run ℝ ε}
    (hrun : Rescales est c d g run run') (hf : ∀ b, Rescales est c d h (f b) (f' (g b))) :
    Rescales est c d h (run >>= f) (run' >>= f') := by
  refine Mirror.Reflects.bind hrun fun r => ?_
  cases r with
  | error e => exact throw e
  | ok b => exact hf b

theorem query {q : Question ℝ} (hq : (rescaling est c d).Asks q) :
    Rescales est c d ((rescaling est c d).answer q) (Run.query q)
      (Run.query ((rescaling est c d).question q)) :=
  .ask hq fun a _ => pure a

/-- A dialogue whose questions a run answers. -/
theorem run {Q : Type} {A : Q → Type} {M : Mirror A} (hM : ∀ q a, M.Admits q a)
    {answer answer' : (q : Q) → Run ℝ (A q)} {dialogue : Dialogue A β} {dialogue' : Dialogue A γ}
    (hanswer : ∀ q, Rescales est c d (M.answer q) (answer q) (answer' (M.question q)))
    (hd : M.Reflects g dialogue dialogue') :
    Rescales est c d g (dialogue.run answer) (dialogue'.run answer') := by
  induction hd with
  | done b => exact pure b
  | @ask q _ _ _ _ ih => exact bind (hanswer q) fun a => ih a (hM q a)

/-! ### Evaluation -/

theorem objective (x : Vec ℝ) : Rescales est c d (c * · + d) (Run.objective x) (Run.objective x) :=
  query (q := .objective x) trivial

theorem note (n : Note ℝ) : Rescales est c d id (Run.note n) (Run.note (n.rescale c d)) :=
  query (q := .note n) trivial

theorem notes (ns : List (Note ℝ)) :
    Rescales est c d id (ns.forM Run.note) ((ns.map (Note.rescale c d)).forM Run.note) := by
  induction ns with
  | nil => exact pure ()
  | cons n ns ih => exact bind (note n) fun _ => ih

theorem progress (p : Progress ℝ) :
    Rescales est c d id (Run.progress p) (Run.progress (p.rescale c d)) :=
  query (q := .progress p) trivial

theorem gradient (hest : Plan.Scales c d est) (x : Vec ℝ) (step : ℝ) :
    Rescales est c d (Vec.scaleUp · c) (Run.gradient x step) (Run.gradient x step) := by
  refine Mirror.Reflects.ask (q := Question.gradient x step) trivial fun plan hplan => ?_
  obtain rfl : plan = est x step := hplan
  exact run (fun _ _ => trivial) (fun y => objective y) (hest x step)

theorem finiteObjective (x : Vec ℝ) :
    Rescales est c d (c * · + d) (Run.finiteObjective x) (Run.finiteObjective x) :=
  bind (objective x) fun v => pure v

theorem finiteGradient (hest : Plan.Scales c d est) (x : Vec ℝ) (step : ℝ) :
    Rescales est c d (Vec.scaleUp · c) (Run.finiteGradient x step) (Run.finiteGradient x step) := by
  refine bind (gradient hest x step) fun g => ?_
  simp only [Vec.length_scaleUp, allFinite_real, not_true_eq_false, if_false]
  split
  · exact throw _
  · exact pure g

theorem iterate (hest : Plan.Scales c d est) (x : Vec ℝ) (step : ℝ) :
    Rescales est c d (Iterate.rescale c d) (Run.iterate x step) (Run.iterate x step) :=
  bind (finiteObjective x) fun f => bind (finiteGradient hest x step) fun g =>
    pure (Iterate.mk x f g)

/-! ### Steps and iterations -/

theorem alongLine (x s : Vec ℝ) (a : ℝ) :
    Rescales est c d (c * · + d) (Run.alongLine x s a) (Run.alongLine x s a) :=
  bind (objective _) fun v => pure v

theorem lineSearch (hc : 0 < c) (opt : Options ℝ) (x s : Vec ℝ) (f₀ : ℝ) :
    Rescales est c d (Step.rescale c d) (Run.lineSearch opt x s f₀)
      (Run.lineSearch (opt.rescale c) x s (c * f₀ + d)) := by
  have hsearch : Rescales est c d (Found.rescale c d) _ _ :=
    run (fun _ _ => trivial) (alongLine x s)
      (Search.reflects_boundedBrent d hc 0 1 opt.lineTol (opt.lineMaxFev - 1))
  refine bind hsearch fun found => ?_
  rw [Found.notes_rescale]
  refine bind (notes _) fun _ => bind (alongLine x s 1) fun f₁ => ?_
  have hchoose : Step.choose (found.rescale c d).best (c * f₀ + d) (c * f₁ + d) =
      (Step.choose found.best f₀ f₁).rescale c d := Step.choose_rescale hc _ _ _
  rw [hchoose]
  rcases Step.choose found.best f₀ f₁ with ⟨alpha, f, _ | _⟩
  · exact bind (note (.notBracketed alpha)) fun _ => pure (Step.mk alpha f false)
  · exact pure (Step.mk alpha f true)

theorem stepAlong (hest : Plan.Scales c d est) (hc : 0 < c) (opt : Options ℝ) (it : Iterate ℝ)
    (s : Vec ℝ) :
    Rescales est c d (Prod.map (Step.rescale c d) (Iterate.rescale c d))
      (Run.stepAlong opt it s) (Run.stepAlong (opt.rescale c) (it.rescale c d) s) :=
  bind (lineSearch hc opt it.x s it.f) fun step => bind (iterate hest _ _) fun next =>
    pure (step, next)

end Rescales

end Run

/-- A method that chooses the same direction on every scale, up to its length; `ρ` says what becomes
of the memory. -/
structure Strategy.Rescales {S : Type} (est : Vec ℝ → ℝ → Plan ℝ (Vec ℝ)) (c d : ℝ) (ρ : S → S)
    (strategy : Strategy ℝ S) : Prop where
  /-- Directions. -/
  direction (k : ℕ) (it : Iterate ℝ) (memory : S) :
    strategy.direction k (it.rescale c d) (ρ memory) =
      Prod.map (Vec.scaleUp · c) ρ (strategy.direction k it memory)
  /-- What the method learns from a step. -/
  absorb (prev next : Iterate ℝ) (memory : S) :
    Run.Rescales est c d ρ (strategy.absorb prev next memory)
      (strategy.absorb (prev.rescale c d) (next.rescale c d) (ρ memory))

namespace Run.Rescales

variable {S : Type} {est : Vec ℝ → ℝ → Plan ℝ (Vec ℝ)} {strategy : Strategy ℝ S} {ρ : S → S}
  {opt : Options ℝ}

/-- **An iteration on another scale.** -/
theorem iteration (hstrategy : strategy.Rescales est c d ρ) (hest : Plan.Scales c d est)
    (hc : 0 < c) (opt : Options ℝ) (k : ℕ) (it : Iterate ℝ) (memory : S) :
    Rescales est c d (Iteration.rescale c d ρ) (Run.iteration strategy opt k it memory)
      (Run.iteration strategy (opt.rescale c) k (it.rescale c d) (ρ memory)) := by
  simp only [Run.iteration, hstrategy.direction k it memory, Prod.map, Vec.normalize_scaleUp hc]
  refine bind (stepAlong hest hc opt it _) fun p => ?_
  have hnorm : Vec.norm (p.2.rescale c d).g = c * Vec.norm p.2.g := Vec.norm_scaleUp hc _
  simp only [Prod.map, hnorm]
  exact bind (note (.iteration _)) fun _ => bind (progress _) fun _ => pure (Iteration.mk _ _ _ _ _)

theorem finish (i : Iteration ℝ S) (flag : ExitFlag) :
    Rescales est c d (Solution.rescale c d) (Run.finish i flag)
      (Run.finish (i.rescale c d ρ) flag) :=
  bind (note (.exit flag _)) fun _ => pure (Solution.mk _ _ _ _)

/-- **The loop on another scale**, by induction on the iterations that are left. -/
theorem descend (hstrategy : strategy.Rescales est c d ρ) (hest : Plan.Scales c d est)
    (hc : 0 < c) (left k : ℕ) (it : Iterate ℝ) (memory : S) :
    Rescales est c d (Solution.rescale c d) (Run.descend strategy opt left k it memory)
      (Run.descend strategy (opt.rescale c) left k (it.rescale c d) (ρ memory)) := by
  induction left generalizing k it memory with
  | zero => exact bind (iteration hstrategy hest hc opt k it memory) fun i => finish i _
  | succ left ih =>
    refine bind (iteration hstrategy hest hc opt k it memory) fun i => ?_
    have hchange : magnitude ((i.rescale c d ρ).next.f - (it.rescale c d).f) =
        c * magnitude (i.next.f - it.f) := by
      change |c * i.next.f + d - (c * it.f + d)| = c * |i.next.f - it.f|
      rw [add_sub_add_right_eq_sub, ← mul_sub, abs_mul, abs_of_pos hc]
    have hmet : (opt.rescale c).toleranceMet (i.rescale c d ρ).progress.gradNorm
        (i.rescale c d ρ).progress.stepSize
        (magnitude ((i.rescale c d ρ).next.f - (it.rescale c d).f)) =
        opt.toleranceMet i.progress.gradNorm i.progress.stepSize
          (magnitude (i.next.f - it.f)) := by
      rw [hchange]
      exact Options.toleranceMet_rescale hc opt _ _ _
    simp only [hmet]
    cases opt.toleranceMet i.progress.gradNorm i.progress.stepSize
      (magnitude (i.next.f - it.f)) with
    | some flag => exact finish i flag
    | none =>
      exact bind (hstrategy.absorb it i.next i.memory) fun memory => ih (k + 1) i.next memory

/-- **A run of a method on another scale.** -/
theorem minimize (hstrategy : strategy.Rescales est c d ρ) (hest : Plan.Scales c d est)
    (hc : 0 < c) (hopt : opt.fault? = none) (memory : S) (x₀ : Vec ℝ) :
    Rescales est c d (Solution.rescale c d) (Run.minimize strategy memory opt x₀)
      (Run.minimize strategy (ρ memory) (opt.rescale c) x₀) := by
  rw [minimize_of_valid (Options.validate_eq_ok_iff.mpr hopt),
    minimize_of_valid (Options.validate_eq_ok_iff.mpr (Options.fault?_rescale hc hopt))]
  by_cases hx₀ : x₀ = []
  · rw [if_pos hx₀, if_pos hx₀]
    exact throw _
  · rw [if_neg hx₀, if_neg hx₀]
    exact bind (iterate hest x₀ opt.fdStep) fun it => descend hstrategy hest hc _ 0 it memory

end Run.Rescales

/-! ### The methods -/

namespace Strategy

variable {est : Vec ℝ → ℝ → Plan ℝ (Vec ℝ)}

theorem rescales_steepest : (steepest (α := ℝ)).Rescales est c d id where
  direction _ it _ := congrArg (·, ()) (Vec.neg_scaleUp it.g c)
  absorb _ _ _ := Run.Rescales.pure ()

/-- A conjugate direction on another scale. -/
def Conjugate.rescale (c : ℝ) (last : Conjugate ℝ) : Conjugate ℝ :=
  ⟨last.s.scaleUp c, c * c * last.gg⟩

/-- The Fletcher-Reeves ratio does not depend on the scale, nor does the test for a restart. -/
theorem conjugateTo_rescale (hc : 0 < c) (n k : ℕ) (g : Vec ℝ) (last : Option (Conjugate ℝ)) :
    conjugateTo n k (g.scaleUp c) (last.map (Conjugate.rescale c)) =
      (conjugateTo n k g last).scaleUp c := by
  cases last with
  | none => exact Vec.neg_scaleUp g c
  | some last =>
    have hpos : 0 < (last.rescale c).gg ↔ 0 < last.gg :=
      mul_pos_iff_of_pos_left (mul_pos hc hc)
    have hbeta : Vec.dot (g.scaleUp c) (g.scaleUp c) / (last.rescale c).gg =
        Vec.dot g g / last.gg := by
      rw [Vec.dot_scaleUp]
      exact mul_div_mul_left _ _ (mul_pos hc hc).ne'
    simp only [conjugateTo, Option.map_some, hpos, hbeta]
    split_ifs
    · simp only [Vec.scaleUp, Conjugate.rescale, List.zipWith_map, List.map_zipWith]
      congr 1
      funext gi si
      ring
    · exact Vec.neg_scaleUp g c

theorem rescales_fletcherReeves (hc : 0 < c) (n : ℕ) :
    (fletcherReeves (α := ℝ) n).Rescales est c d (Option.map (Conjugate.rescale c)) where
  direction k it last := by
    simp only [fletcherReeves, Iterate.rescale, conjugateTo_rescale hc, Vec.dot_scaleUp]
    rfl
  absorb _ _ last := Run.Rescales.pure last

end Strategy

/-! ### Runs on problems -/

namespace Run

variable {est : Vec ℝ → ℝ → Plan ℝ (Vec ℝ)}

/-- The evaluations of a transcript on another scale. -/
theorem evaluations_rescaling (t : Transcript ℝ) :
    Transcript.evaluations (t.map (rescaling est c d).exchange) =
      t.evaluations.map fun p => (p.1, c * p.2 + d) := by
  rw [Transcript.evaluations, Transcript.evaluations, List.filterMap_map, List.map_filterMap]
  congr 1
  funext x
  obtain ⟨q, a⟩ := x
  cases q <;> rfl

/-- A problem whose objective is measured in other units gives the answers on another scale. -/
theorem answer_rescaling {σ σ' : Type} {problem : Callbacks (StateM σ) ℝ}
    {problem' : Callbacks (StateM σ') ℝ} {f : Vec ℝ → ℝ} (hf : problem.ObjectiveIs f)
    (hf' : problem'.ObjectiveIs fun x => c * f x + d) (hest : problem.EstimatorIs est)
    (hest' : problem'.EstimatorIs est) {q : Question ℝ} (hq : (rescaling est c d).Asks q) (s : σ)
    (s' : σ') :
    (rescaling est c d).Admits q ((problem.answer q).run s).1 ∧
      ((problem'.answer ((rescaling est c d).question q)).run s').1 =
        (rescaling est c d).answer q ((problem.answer q).run s).1 := by
  cases q with
  | objective x => exact ⟨trivial, (hf' x s').trans (congrArg (c * · + d) (hf x s).symm)⟩
  | gradient x h => exact ⟨hest x h s, (hest' x h s').trans (hest x h s).symm⟩
  | constraints x => exact hq.elim
  | update b dx dg => exact hq.elim
  | progress p => exact ⟨trivial, rfl⟩
  | note n => exact ⟨trivial, rfl⟩

end Run

namespace Method

variable {est : Vec ℝ → ℝ → Plan ℝ (Vec ℝ)} {method : Method} {opt : Options ℝ}

/-- A run of steepest descent or conjugate gradients on another scale. -/
theorem rescales_solve (hmethod : method ≠ .quasiNewton) (hest : Plan.Scales c d est) (hc : 0 < c)
    (hopt : opt.fault? = none) (x₀ : Vec ℝ) :
    Run.Rescales est c d (Solution.rescale c d) (method.solve opt x₀)
      (method.solve (opt.rescale c) x₀) := by
  cases method with
  | steepestDescent => exact .minimize Strategy.rescales_steepest hest hc hopt () x₀
  | conjugateGradient =>
    exact .minimize (Strategy.rescales_fletcherReeves hc _) hest hc hopt none x₀
  | quasiNewton => exact absurd rfl hmethod

/-- **Steepest descent and conjugate gradients do not see the units of the objective.** On `c f + d`
with the tolerances scaled, they evaluate the objective at the same points in the same order as on
`f`, and stop at the same point, after as many iterations, for the same reason; with usable options
and a starting point that has a coordinate they do stop. The same holds of Brent's search alone,
also if the function on its interval keeps a state or fails. -/
theorem unitless_of_recordOn {σ σ' : Type} {problem : Callbacks (StateM σ) ℝ}
    {problem' : Callbacks (StateM σ') ℝ} {f : Vec ℝ → ℝ} (hc : 0 < c) (hf : problem.ObjectiveIs f)
    (hf' : problem'.ObjectiveIs fun x => c * f x + d)
    (hest : est = Plan.forward ∨ est = Plan.central) (hgradient : problem.EstimatorIs est)
    (hgradient' : problem'.EstimatorIs est) (hmethod : method ≠ .quasiNewton)
    (hopt : opt.validate = .ok ()) (x₀ : Vec ℝ) (s : σ) (s' : σ') :
    let out := (((method.solve opt x₀).recordOn problem).run s).1
    let out' := (((method.solve (opt.rescale c) x₀).recordOn problem').run s').1
    out'.2.evaluations = out.2.evaluations.map (fun p => (p.1, c * p.2 + d)) ∧
    out'.1 = out.1.map (Solution.rescale c d) ∧
    (x₀ ≠ [] → ∃ sol, out.1 = .ok sol) ∧
    ∀ (m : Type → Type) [Monad m] [LawfulMonad m] (φ : ℝ → m ℝ) (lo hi tol : ℝ) (maxFev : ℕ),
      (boundedBrent lo hi tol maxFev).record (fun x => (c * · + d) <$> φ x) =
        (fun p => (p.1.rescale c d, p.2.map fun e => ⟨e.question, c * e.answer + d⟩)) <$>
          (boundedBrent lo hi tol maxFev).record φ := by
  intro out out'
  have hopt := Options.validate_eq_ok_iff.mp hopt
  have hscales : Plan.Scales c d est := by
    rcases hest with rfl | rfl
    · exact Plan.scales_forward
    · exact Plan.scales_central
  have hrecord : out' =
      (out.1.map (Solution.rescale c d), out.2.map (Run.rescaling est c d).exchange) :=
    (rescales_solve hmethod hscales hc hopt x₀).record
      (fun q hq => Run.answer_rescaling hf hf' hgradient hgradient' hq) s s'
  refine ⟨?_, congrArg Prod.fst hrecord, fun hx₀ => ?_, fun m _ _ φ lo hi tol maxFev => ?_⟩
  · rw [congrArg Prod.snd hrecord]
    exact Run.evaluations_rescaling out.2
  · have hends : Run.Ends (method.solve opt x₀) out.2 out.1 := Run.ends_recordOn _ s
    have hplans : out.2.EstimatorIs est := hgradient.recordOn
    have hnot : ∀ b dx dg answer, ⟨.update b dx dg, answer⟩ ∉ out.2 := fun b dx dg answer hx =>
      hmethod (eq_quasiNewton_of_update hends hx)
    refine succeeds_of_ends hends hopt hx₀
      ⟨fun x h plan hx => ?_, fun b dx dg e hx => absurd hx (hnot b dx dg _)⟩
    rw [hplans x h plan hx]
    exact hest.imp (fun h => by rw [h]) fun h => by rw [h]
  · exact Search.record_boundedBrent_rescale d hc φ lo hi tol maxFev

/-- A sum of squares in units of a thousandth and from another origin. -/
theorem unitless_of_recordOn_sumOfSquares :
    let problem (c d : ℝ) : Callbacks (StateM Unit) ℝ := {
      objective := fun x => pure (c * Vec.dot x x + d)
      constraints := fun _ => pure ⟨[], []⟩
      gradient := fun x h => pure (.forward x h)
      update := fun b _ _ => pure (.ok b.cleared)
      progress := fun _ => pure ()
      note := fun _ => pure () }
    let opt : Options ℝ := .default
    let out := (((conjugateGradient.solve opt [3, 1]).recordOn (problem 1 0)).run ()).1
    let out' := (((conjugateGradient.solve (opt.rescale 1000) [3, 1]).recordOn
      (problem (1000 * 1) (1000 * 0 + 5))).run ()).1
    opt.validate = .ok () ∧ (∃ sol, out.1 = .ok sol ∧ out'.1 = .ok (sol.rescale 1000 5)) ∧
      out'.2.evaluations = out.2.evaluations.map fun p => (p.1, 1000 * p.2 + 5) := by
  intro problem opt out out'
  have hopt : opt.validate = .ok () := Options.validate_eq_ok_iff.mpr
    (Options.fault?_eq_none_iff.mpr (Options.usable_default (show 200 ≠ 0 by decide)))
  have hf : (problem 1 0).ObjectiveIs fun x => 1 * Vec.dot x x + 0 := fun _ _ => rfl
  have hf' : (problem (1000 * 1) (1000 * 0 + 5)).ObjectiveIs
      fun x => 1000 * (1 * Vec.dot x x + 0) + 5 := fun x _ => by
    change 1000 * 1 * Vec.dot x x + (1000 * 0 + 5) = 1000 * (1 * Vec.dot x x + 0) + 5
    ring
  obtain ⟨hevaluations, hresult, hsucceeds, -⟩ := unitless_of_recordOn (by norm_num) hf hf'
    (Or.inl rfl) (fun _ _ _ => rfl) (fun _ _ _ => rfl) (show conjugateGradient ≠ quasiNewton by decide)
    hopt [3, 1] () ()
  obtain ⟨sol, hsol⟩ := hsucceeds (List.cons_ne_nil _ _)
  refine ⟨hopt, ⟨sol, hsol, ?_⟩, hevaluations⟩
  exact hresult.trans (congrArg (Except.map (Solution.rescale 1000 5)) hsol)

end Method

end Optimum

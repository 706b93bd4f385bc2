import Optimum.Proofs.InverseHessian.Frames
import Optimum.Proofs.Parallel

/-!
# Descents and frames of reference

In exact arithmetic a descent does not depend on the order of the coordinates, or on where their
origin is. It deals with points through the objective and through differences, and with directions
through inner products, so each of its parts does the same in another frame. The order of the
coordinates shows in the order in which an estimator evaluates the objective, but not in what the
estimate comes to; this is why the two runs are compared by their results, on problems without a
state, and not question by question.

## What is proved

* `Frame.Shows` relates a problem to the one that is seen in another frame, and there is one lemma
  for each part of a descent.
* `Strategy.Frameless`: what a method has to satisfy; the three methods do.
* `Method.parallel_solve`: the runs of a method in two frames.
-/

namespace Optimum

open Scalar

variable {n : ℕ} {F : Frame n} {x y : Vec ℝ}

/-- A function on the new frame does what the other one does on the old. -/
def Frame.Carries {β : Type} (F : Frame n) (f f' : Vec ℝ → β) : Prop :=
  ∀ ⦃x y⦄, F.Moves x y → f' y = f x

/-! ### Difference quotients -/

namespace Plan

variable {f f' : Vec ℝ → ℝ}

/-- What plans for one element after another come to. -/
theorem answered_mapM {ι : Type} (f : Vec ℝ → ℝ) (quotient : ι → Plan ℝ ℝ) (is : List ι) :
    Dialogue.answered f (is.mapM quotient) = is.map fun i => Dialogue.answered f (quotient i) := by
  induction is with
  | nil => rfl
  | cons i is ih =>
    rw [List.mapM_cons, Dialogue.answered, Dialogue.run_bind, List.map_cons, ← ih]
    simp only [Dialogue.run_bind]
    rfl

theorem answered_forward (f : Vec ℝ → ℝ) (x : Vec ℝ) (step : ℝ) :
    Dialogue.answered f (forward x step) =
      (perturbed (· + step) x).map fun forth => (f forth - f x) / step :=
  answered_mapM f _ _

theorem answered_central (f : Vec ℝ → ℝ) (x : Vec ℝ) (step : ℝ) :
    Dialogue.answered f (central x step) =
      ((perturbed (· + step) x).zip (perturbed (· - step) x)).map fun p =>
        (f p.1 - f p.2) / (2.0 * step) :=
  answered_mapM f _ _

theorem length_answered_forward (f : Vec ℝ → ℝ) (hx : x.length = n) (step : ℝ) :
    (Dialogue.answered f (forward x step)).length = n := by
  rw [answered_forward, List.length_map, length_perturbed, hx]

theorem length_answered_central (f : Vec ℝ → ℝ) (hx : x.length = n) (step : ℝ) :
    (Dialogue.answered f (central x step)).length = n := by
  rw [answered_central, List.length_map, List.length_zip, length_perturbed, length_perturbed, hx,
    min_self]

theorem coords_forward (f : Vec ℝ → ℝ) (hx : x.length = n) (step : ℝ) (i : Fin n) :
    Vec.coords n (Dialogue.answered f (forward x step)) i =
      (f (x.set i (Vec.coords n x i + step)) - f x) / step := by
  have hi : (i : ℕ) < x.length := hx ▸ i.2
  rw [Vec.coords_apply (length_answered_forward f hx step ▸ i.2), Vec.coords_apply hi]
  simp only [answered_forward, perturbed, List.getElem_map, List.getElem_mapIdx]

theorem coords_central (f : Vec ℝ → ℝ) (hx : x.length = n) (step : ℝ) (i : Fin n) :
    Vec.coords n (Dialogue.answered f (central x step)) i =
      (f (x.set i (Vec.coords n x i + step)) - f (x.set i (Vec.coords n x i - step))) /
        (2.0 * step) := by
  have hi : (i : ℕ) < x.length := hx ▸ i.2
  rw [Vec.coords_apply (length_answered_central f hx step ▸ i.2), Vec.coords_apply hi]
  simp only [answered_central, perturbed, List.getElem_map, List.getElem_zip, List.getElem_mapIdx]

/-- An estimator whose estimates are the same in the old and in the new frame. -/
def Frameless (F : Frame n) (est : Vec ℝ → ℝ → Plan ℝ (Vec ℝ)) : Prop :=
  ∀ ⦃f f'⦄, F.Carries f f' → ∀ ⦃x y⦄, F.Moves x y → ∀ step,
    F.Turns (Dialogue.answered f (est x step)) (Dialogue.answered f' (est y step))

/-- A coordinate is changed by a step. -/
theorem moves_perturbed (h : F.Moves x y) (step : ℝ) (i : Fin n) :
    F.Moves (x.set (F.turn i) (Vec.coords n x (F.turn i) + step))
      (y.set i (Vec.coords n y i + step)) := by
  rw [h.coords, add_right_comm]
  exact h.set i _

theorem frameless_forward (F : Frame n) : Frameless F forward := fun f f' hf x y h step => {
  length := length_answered_forward f h.length step
  length' := length_answered_forward f' h.length' step
  coords := fun i => by
    rw [coords_forward f' h.length', coords_forward f h.length, hf h,
      hf (moves_perturbed h step i)] }

theorem frameless_central (F : Frame n) : Frameless F central := fun f f' hf x y h step => {
  length := length_answered_central f h.length step
  length' := length_answered_central f' h.length' step
  coords := fun i => by
    have hback := moves_perturbed h (-step) i
    rw [← sub_eq_add_neg, ← sub_eq_add_neg] at hback
    rw [coords_central f' h.length', coords_central f h.length, hf (moves_perturbed h step i),
      hf hback] }

end Plan

/-! ### Problems -/

/-- The problem `p` is seen as `p'`: objective and constraints are carried over, while estimator and
rule are the same, and do not depend on the frame. -/
structure Frame.Shows (F : Frame n) (p p' : Callbacks Id ℝ) : Prop where
  /-- The objective. -/
  objective : F.Carries p.objective p'.objective
  /-- The constraints. -/
  constraints : F.Carries p.constraints p'.constraints
  /-- The estimator. -/
  gradient : p'.gradient = p.gradient
  /-- It does the same in both frames. -/
  estimator : Plan.Frameless F p.gradient
  /-- The update rule. -/
  update : p'.update = p.update
  /-- It does the same in both frames. -/
  rule : UpdateRule.Frameless F p.update

/-- An iterate in both frames. -/
structure Frame.MovesIterate (F : Frame n) (it it' : Iterate ℝ) : Prop where
  /-- The point. -/
  point : F.Moves it.x it'.x
  /-- The objective there. -/
  value : it'.f = it.f
  /-- The gradient. -/
  gradient : F.Turns it.g it'.g

/-- A solution in both frames. -/
structure Frame.MovesSolution (F : Frame n) (sol sol' : Solution ℝ) : Prop where
  /-- The point. -/
  point : F.Moves sol.x sol'.x
  /-- The objective there. -/
  value : sol'.f = sol.f
  /-- Why the run stopped. -/
  exitFlag : sol'.exitFlag = sol.exitFlag
  /-- The number of iterations. -/
  iterations : sol'.iterations = sol.iterations

namespace Run.Parallel

variable {p p' : Callbacks Id ℝ} {a b : Vec ℝ} {it it' : Iterate ℝ}

/-! ### Evaluation -/

theorem objective (hp : F.Shows p p') (h : F.Moves x y) :
    Parallel p p' Eq (Run.objective x) (Run.objective y) :=
  query (.objective x) (.objective y) nofun nofun (hp.objective h).symm

theorem finiteObjective (hp : F.Shows p p') (h : F.Moves x y) :
    Parallel p p' Eq (Run.finiteObjective x) (Run.finiteObjective y) := by
  refine bind (objective hp h) ?_
  rintro v _ rfl
  exact pure rfl

theorem finiteGradient (hp : F.Shows p p') (h : F.Moves x y) (step : ℝ) :
    Parallel p p' F.Turns (Run.finiteGradient x step) (Run.finiteGradient y step) := by
  have hestimate : F.Turns (Dialogue.answered p.objective (p.gradient x step))
      (Dialogue.answered p'.objective (p'.gradient y step)) := by
    rw [hp.gradient]
    exact hp.estimator hp.objective h step
  refine bind (gradient hestimate) fun g g' hg => ?_
  have hlength : g.length = x.length := hg.length.trans h.length.symm
  have hlength' : g'.length = y.length := hg.length'.trans h.length'.symm
  simp only [hlength, hlength', ne_eq, not_true_eq_false, allFinite_real, if_false]
  exact pure hg

theorem iterate (hp : F.Shows p p') (h : F.Moves x y) (step : ℝ) :
    Parallel p p' F.MovesIterate (Run.iterate x step) (Run.iterate y step) := by
  refine bind (finiteObjective hp h) ?_
  rintro f _ rfl
  exact bind (finiteGradient hp h step) fun g g' hg => pure ⟨h, rfl, hg⟩

/-- A call of the update rule. -/
theorem update (hp : F.Shows p p') {b c : Mat ℝ} {dx dx' dg dg' : Vec ℝ} (hb : F.TurnsMatrix b c)
    (hx : F.Turns dx dx') (hg : F.Turns dg dg') :
    Parallel p p' (Corresponds F.TurnsMatrix) (Run.query (.update b dx dg))
      (Run.query (.update c dx' dg')) := by
  refine query (.update b dx dg) (.update c dx' dg') nofun nofun ?_
  change Corresponds F.TurnsMatrix (p.update b dx dg) (p'.update c dx' dg')
  rw [hp.update]
  exact hp.rule hb hx hg

/-! ### Steps and iterations -/

theorem alongLine (hp : F.Shows p p') (h : F.Moves x y) (hs : F.Turns a b) (t : ℝ) :
    Parallel p p' Eq (Run.alongLine x a t) (Run.alongLine y b t) := by
  refine bind (objective hp (h.along hs t)) ?_
  rintro v _ rfl
  exact pure rfl

theorem lineSearch (hp : F.Shows p p') (opt : Options ℝ) (h : F.Moves x y) (hs : F.Turns a b)
    (f₀ : ℝ) : Parallel p p' Eq (Run.lineSearch opt x a f₀) (Run.lineSearch opt y b f₀) := by
  refine bind (run (alongLine hp h hs) _) ?_
  rintro found _ rfl
  refine bind (notes _) fun _ _ _ => bind (alongLine hp h hs 1) ?_
  rintro f₁ _ rfl
  dsimp only
  split
  · exact pure rfl
  · exact bind (note _) fun _ _ _ => pure rfl

/-- A step and the iterate that it leads to. -/
theorem stepAlong (hp : F.Shows p p') (opt : Options ℝ) (hit : F.MovesIterate it it')
    (hs : F.Turns a b) :
    Parallel p p' (fun q q' => q'.1 = q.1 ∧ F.MovesIterate q.2 q'.2)
      (Run.stepAlong opt it a) (Run.stepAlong opt it' b) := by
  rw [Run.stepAlong, Run.stepAlong, hit.value]
  refine bind (lineSearch hp opt hit.point hs it.f) ?_
  rintro step _ rfl
  exact bind (iterate hp (hit.point.along hs step.alpha) opt.fdStep) fun next next' hnext =>
    pure ⟨rfl, hnext⟩

end Run.Parallel

/-! ### Methods -/

/-- A method that does the same in the old and in the new frame, with memories that correspond by
`Recalls`. -/
structure Strategy.Frameless {S : Type} (F : Frame n) (p p' : Callbacks Id ℝ)
    (strategy : Strategy ℝ S) (Recalls : S → S → Prop) : Prop where
  /-- Directions. -/
  direction : ∀ k it it' m m', F.MovesIterate it it' → Recalls m m' →
    F.Turns (strategy.direction k it m).1 (strategy.direction k it' m').1
  /-- The memory after choosing them. -/
  memory : ∀ k it it' m m', F.MovesIterate it it' → Recalls m m' →
    Recalls (strategy.direction k it m).2 (strategy.direction k it' m').2
  /-- What the method learns from a step. -/
  absorb : ∀ prev prev' next next' m m', F.MovesIterate prev prev' → F.MovesIterate next next' →
    Recalls m m' → Run.Parallel p p' Recalls (strategy.absorb prev next m)
      (strategy.absorb prev' next' m')

namespace Strategy.Frameless

open Run

variable {p p' : Callbacks Id ℝ} {S : Type} {strategy : Strategy ℝ S} {Recalls : S → S → Prop}
  {opt : Options ℝ}

/-- What an iteration did, in both frames. -/
structure Does (F : Frame n) (Recalls : S → S → Prop) (i i' : Iteration ℝ S) : Prop where
  /-- The next iterate. -/
  next : F.MovesIterate i.next i'.next
  /-- The memory. -/
  memory : Recalls i.memory i'.memory
  /-- What the monitor was told. -/
  progress : i'.progress = i.progress

/-- **An iteration in both frames.** -/
theorem iteration (h : strategy.Frameless F p p' Recalls) (hp : F.Shows p p') (k : ℕ)
    {it it' : Iterate ℝ} {m m' : S} (hit : F.MovesIterate it it') (hm : Recalls m m') :
    Parallel p p' (Does F Recalls) (Run.iteration strategy opt k it m)
      (Run.iteration strategy opt k it' m') := by
  have hdirection := h.direction k it it' m m' hit hm
  refine Parallel.bind (Parallel.stepAlong hp opt hit hdirection.normalize) ?_
  rintro ⟨step, next⟩ ⟨_, next'⟩ ⟨rfl, hnext⟩
  replace hnext : F.MovesIterate next next' := hnext
  simp only [hnext.value, hnext.gradient.norm, hnext.point.distance hit.point]
  exact Parallel.bind (.note _) fun _ _ _ => Parallel.bind (.progress _) fun _ _ _ =>
    .pure ⟨hnext, h.memory k it it' m m' hit hm, rfl⟩

/-- **The loop in both frames.** -/
theorem related_descentLoop (h : strategy.Frameless F p p' Recalls) (hp : F.Shows p p') :
    (descentLoop strategy opt).Related (parallel p p') (descentLoop strategy opt)
      (fun s s' => F.MovesIterate s.1 s'.1 ∧ Recalls s.2 s'.2) (fun _ _ => Does F Recalls)
      F.MovesSolution where
  iteration k s s' hs := h.iteration hp k hs.1 hs.2
  met? opt s s' i i' hs hi := by
    simp only [Loop.met?, descentLoop, hi.progress, hi.next.value, hs.1.value]
  carry s s' i i' hs hi :=
    Parallel.bind (h.absorb _ _ _ _ _ _ hs.1 hi.next hi.memory) fun m m' hm => .pure ⟨hi.next, hm⟩
  finish s s' i i' flag hi := by
    simp only [Loop.finish, descentLoop, hi.progress]
    exact Parallel.bind (.note _) fun _ _ _ => .pure ⟨hi.next.point, hi.next.value, rfl, rfl⟩

/-- **A run of a method in both frames.** -/
theorem minimize (h : strategy.Frameless F p p' Recalls) (hp : F.Shows p p') {m m' : S}
    (hm : Recalls m m') (hx : F.Moves x y) :
    Parallel p p' F.MovesSolution (Run.minimize strategy m opt x)
      (Run.minimize strategy m' opt y) := by
  refine Parallel.bind (.check _) fun _ _ _ => ?_
  rw [hx.isEmpty_eq]
  split
  · exact .throw _
  · refine Parallel.bind (.iterate hp hx opt.fdStep) fun it it' hit => ?_
    rw [descend_eq_run, descend_eq_run]
    exact (h.related_descentLoop hp).run opt _ 0 ⟨hit, hm⟩

end Strategy.Frameless

namespace Strategy

variable {p p' : Callbacks Id ℝ}

theorem frameless_steepest (F : Frame n) (p p' : Callbacks Id ℝ) :
    (steepest (α := ℝ)).Frameless F p p' fun _ _ => True where
  direction _ _ _ _ _ hit _ := hit.gradient.neg
  memory _ _ _ _ _ _ _ := trivial
  absorb _ _ _ _ _ _ _ _ _ := .pure trivial

/-- A conjugate direction in both frames. -/
structure Conjugate.Turns (F : Frame n) (last last' : Conjugate ℝ) : Prop where
  /-- The direction. -/
  direction : F.Turns last.s last'.s
  /-- The squared norm of the gradient. -/
  gg : last'.gg = last.gg

theorem turns_conjugateTo {a b : Vec ℝ} {last last' : Option (Conjugate ℝ)} (m k : ℕ)
    (hg : F.Turns a b) (hlast : Option.Rel (Conjugate.Turns F) last last') :
    F.Turns (conjugateTo m k a last) (conjugateTo m k b last') := by
  cases hlast with
  | none => exact hg.neg
  | @some last last' h =>
    simp only [conjugateTo, h.gg, hg.dot hg]
    split
    · exact hg.zipWith h.direction _
    · exact hg.neg

theorem frameless_fletcherReeves (F : Frame n) (p p' : Callbacks Id ℝ) (m : ℕ) :
    (fletcherReeves (α := ℝ) m).Frameless F p p' (Option.Rel (Conjugate.Turns F)) where
  direction k _ _ _ _ hit hlast := turns_conjugateTo m k hit.gradient hlast
  memory k _ _ _ _ hit hlast :=
    .some ⟨turns_conjugateTo m k hit.gradient hlast, hit.gradient.dot hit.gradient⟩
  absorb _ _ _ _ _ _ _ _ hlast := .pure hlast

theorem frameless_quasiNewton (hp : F.Shows p p') :
    (quasiNewton (α := ℝ)).Frameless F p p' F.TurnsMatrix where
  direction _ _ _ _ _ hit hb := (hb.mulVec hit.gradient).neg
  memory _ _ _ _ _ _ hb := hb
  absorb prev prev' next next' b c hprev hnext hb := by
    refine Run.Parallel.bind (.update hp hb (hnext.point.sub hprev.point)
      (hnext.gradient.sub hprev.gradient)) fun answer answer' h => ?_
    cases h with
    | ok hdb => exact .pure (hb.add hdb)
    | error e =>
      cases e with
      | illConditionedUpdate c => exact Run.Parallel.bind (.note _) fun _ _ _ => .pure hb
      | _ => exact .throw _

end Strategy

/-- **A run of each of the methods in both frames.** -/
theorem Method.parallel_solve {p p' : Callbacks Id ℝ} (method : Method) (hp : F.Shows p p')
    (opt : Options ℝ) (hx : F.Moves x y) :
    Run.Parallel p p' F.MovesSolution (method.solve opt x) (method.solve opt y) := by
  have hlength : y.length = x.length := hx.length'.trans hx.length.symm
  cases method with
  | steepestDescent => exact (Strategy.frameless_steepest F p p').minimize hp trivial hx
  | conjugateGradient =>
    rw [solve, Run.conjugateGradient, Run.conjugateGradient, hlength]
    exact (Strategy.frameless_fletcherReeves F p p' _).minimize hp .none hx
  | quasiNewton =>
    rw [solve, Run.quasiNewton, Run.quasiNewton, hlength, hx.length]
    exact (Strategy.frameless_quasiNewton hp).minimize hp F.turnsMatrix_identity hx

end Optimum

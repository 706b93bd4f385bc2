import Optimum.Proofs.Descent.Locality
import Optimum.Proofs.Descent.Questions
import Optimum.Proofs.Descent.Success
import Optimum.Proofs.Lagrangian.Stateless
import Optimum.Proofs.Loop

/-!
# Outer iterations are local

An outer iteration of the augmented Lagrangian method goes where its inner run ends, so in exact
arithmetic it moves by at most as many units as the inner run had iterations. Both are on record:
the monitor is told how far it moved, and the log how many iterations the inner run had.

A step of a method may be shorter than its parameter says where an update rule adds rows to the
approximation of a run in one dimension: a run on a sum of elements shows it.

## What is proved

* `Run.distance_of_ends_outerIteration`: the bound for one outer iteration.
* `Run.local_of_recordOn`: runs of the three methods are local, and so are the outer iterations of
  every run of the augmented Lagrangian method.
-/

namespace Optimum

open Scalar

/-! ### The iterations of inner runs -/

section InnerIterations

variable {α : Type}

/-- The number of inner iterations, in a note about an outer iteration. -/
def Question.innerIterations? : Question α → Option ℕ
  | .note (.outer _ _ _ _ _ m) => some m
  | _ => none

theorem Question.OfDescent.innerIterations?_eq_none {q : Question α} (h : q.OfDescent) :
    q.innerIterations? = none := by
  cases q with
  | note n => cases n <;> trivial
  | _ => rfl

theorem Question.Quiet.innerIterations?_eq_none {q : Question α} (h : q.Quiet) :
    q.innerIterations? = none := by
  cases q with
  | note n =>
    cases n with
    | outer _ _ _ _ _ _ => cases h
    | _ => rfl
  | _ => rfl

namespace Transcript

/-- The numbers of inner iterations that were noted. -/
def innerIterations (t : Transcript α) : List ℕ := t.filterMap fun x => x.question.innerIterations?

@[simp] theorem innerIterations_append (t u : Transcript α) :
    innerIterations (t ++ u) = innerIterations t ++ innerIterations u := List.filterMap_append

theorem innerIterations_eq_nil_iff {t : Transcript α} :
    t.innerIterations = [] ↔ ∀ x ∈ t, x.question.innerIterations? = none :=
  List.filterMap_eq_nil_iff

end Transcript

variable [Scalar α]

/-- A relayed run notes what the run does. -/
theorem Lagrangian.Relayed.innerIterations_eq {l : Lagrangian α} {kept kept' : Kept α}
    {t u : Transcript α} (h : l.Relayed kept t u kept') :
    u.innerIterations = t.innerIterations :=
  h.filterMap_eq (fun _ _ => rfl) (fun _ _ => rfl) fun _ _ => rfl

end InnerIterations

namespace Run

/-- What a descent notes, also under a Lagrangian, has nothing of outer iterations. -/
theorem innerIterations_of_ends_under {α β : Type} [Scalar α] {l : Lagrangian α} {run : Run α β}
    {u : Transcript α} {r : Except (Failure α) β} (hrun : AsksOnly Question.OfDescent run)
    (h : Ends (under l run) u r) : u.innerIterations = [] := by
  obtain ⟨t, r', kept, ht, hrelayed, -⟩ := Lagrangian.ends_under h
  rw [hrelayed.innerIterations_eq, Transcript.innerIterations_eq_nil_iff]
  exact fun x hx => (hrun t r' ht x hx).innerIterations?_eq_none

theorem asksOnly_finiteGradient {α : Type} [Scalar α] (x : Vec α) (h : α) :
    AsksOnly Question.OfDescent (finiteGradient x h) :=
  (AsksOnly.finiteGradient x h).mono fun _ => Question.Evaluating.ofDescent

/-! ### Outer iterations -/

variable {opt : Options ℝ} {lagOpt : LagrangianOptions ℝ} {k : ℕ} {it : OuterIterate ℝ}
  {t : Transcript ℝ}

/-- The inner run moves by at most as many units as it has iterations. -/
theorem distance_of_ends_innerRun {inner : Solution ℝ}
    (h : Ends (innerRun lagOpt it) t (.ok inner)) :
    Vec.distance inner.x it.x ≤ inner.iterations := by
  obtain ⟨u, r, kept, hu, -, hr⟩ := Lagrangian.ends_under h
  have hok : r = .ok inner := by
    cases r with
    | error e => cases hr
    | ok b =>
      cases hr
      rfl
  rw [hok] at hu
  have hsolve : Ends (Method.quasiNewton.solve lagOpt.inner it.x) u (.ok inner) := hu
  exact Method.distance_of_ends_solve hsolve

/-- **An outer iteration moves by at most as many units as its inner run has iterations.** -/
theorem distance_of_ends_outerIteration {i : OuterIteration ℝ}
    (h : Ends (outerIteration opt lagOpt k it) t (.ok i)) :
    i.progress.stepSize = Vec.distance i.next.x it.x ∧
      Vec.distance i.next.x it.x ≤ i.inner.iterations := by
  obtain ⟨t₁, inner, r, t₂, g, f, h₁, -, -, -, rfl, rfl⟩ := ends_outerIteration_ok_iff.mp h
  exact ⟨rfl, distance_of_ends_innerRun h₁⟩

/-- It notes how many there were. -/
theorem innerIterations_of_ends_outerIteration {i : OuterIteration ℝ}
    (h : Ends (outerIteration opt lagOpt k it) t (.ok i)) :
    t.innerIterations = [i.inner.iterations] := by
  obtain ⟨t₁, inner, r, t₂, g, f, h₁, -, h₂, -, rfl, rfl⟩ := ends_outerIteration_ok_iff.mp h
  have hinner := innerIterations_of_ends_under (AsksOnly.solve .quasiNewton lagOpt.inner it.x) h₁
  have hgradient := innerIterations_of_ends_under (asksOnly_finiteGradient inner.x opt.fdStep) h₂
  have hresiduals : Transcript.innerIterations (⟨.constraints inner.x, r⟩ :: t₂) = [] := hgradient
  rw [Transcript.innerIterations_append, Transcript.innerIterations_append, hinner, hresiduals]
  rfl

/-- An outer iteration that fails neither tells the monitor nor notes anything of it. -/
theorem silent_of_ends_outerIteration {e : Failure ℝ}
    (h : Ends (outerIteration opt lagOpt k it) t (.error e)) :
    t.progress = [] ∧ t.innerIterations = [] := by
  obtain ⟨u, v, r, rfl, hinner, hquiet⟩ := exists_quiet_of_ends_outerIteration_error h
  have hsilent := innerIterations_of_ends_under (AsksOnly.solve .quasiNewton lagOpt.inner it.x) hinner
  constructor
  · rw [Transcript.progress_append, progress_of_ends_under hinner, hquiet.progress]
    rfl
  · rw [Transcript.innerIterations_append, hsilent, Transcript.innerIterations_eq_nil_iff.mpr
      fun x hx => (hquiet x hx).innerIterations?_eq_none]
    rfl

/-- **Outer iterations are local**, one after another. -/
theorem local_of_ends_outerDescend {left : ℕ} {r : Except (Failure ℝ) (Solution ℝ × Multipliers ℝ)}
    (h : Ends (outerDescend opt lagOpt left k it) t r) :
    List.Forall₂ (fun p m => p.stepSize ≤ (m : ℝ)) t.progress t.innerIterations := by
  have goesOn : ∀ {k it i u v}, Ends (outerIteration opt lagOpt k it) u (.ok i) →
      List.Forall₂ (fun p m => p.stepSize ≤ (m : ℝ)) v.progress v.innerIterations →
      List.Forall₂ (fun p m => p.stepSize ≤ (m : ℝ)) (u ++ v).progress (u ++ v).innerIterations := by
    intro k it i u v hu hv
    obtain ⟨hsize, hle⟩ := distance_of_ends_outerIteration hu
    rw [Transcript.progress_append, Transcript.innerIterations_append,
      (progress_of_ends_outerIteration hu).1, innerIterations_of_ends_outerIteration hu]
    exact .cons (hsize.trans_le hle) hv
  rw [outerDescend_eq_run] at h
  replace h := Loop.runs_of_ends h
  induction h with
  | fails h₁ =>
    rw [(silent_of_ends_outerIteration h₁).1, (silent_of_ends_outerIteration h₁).2]
    exact .nil
  | stops h₁ _ => exact goesOn h₁ .nil
  | breaks _ _ h₃ => cases (ends_pure_iff.mp h₃).2
  | goesOn h₁ _ h₃ _ ih =>
    obtain ⟨rfl, -⟩ := ends_pure_iff.mp h₃
    exact goesOn h₁ ih

/-! ### Whole runs -/

/-- **Runs are local**, in exact arithmetic and whatever the callbacks answer. A run of a method is
`Transcript.Local`: its directions have unit length or are zero, its steps are between no step and the
full step, and in iteration `k` it evaluates its objective within a distance of `k` from its starting
point. The monitor is told of steps no longer than their parameters, and just as long where the
direction is not zero, unless the update rule of a quasi-Newton method answers an approximation of a
single row with a change of more rows. An outer iteration of the augmented Lagrangian method moves by
at most as many units as its inner run has iterations; in a run of that method, each distance that the
monitor is told of is at most the number of inner iterations that is noted with it. -/
theorem local_of_recordOn {σ : Type} (problem : Callbacks (StateM σ) ℝ)
    (hopt : opt.validate = .ok ()) (lagOpt : LagrangianOptions ℝ) (method : Method) (x₀ : Vec ℝ)
    (s : σ) :
    (let out := (((method.solve opt x₀).recordOn problem).run s).1
     ∃ stages, Minimizes (method.strategy x₀.length) (method.initial x₀.length) opt x₀ out.2 stages
        out.1 ∧ out.2.Local method opt x₀ stages out.1) ∧
    (∀ k it t i, Ends (outerIteration opt lagOpt k it) t (.ok i) →
      Vec.distance i.next.x it.x ≤ i.inner.iterations) ∧
    (let out := (((augmentedLagrangian opt lagOpt x₀).recordOn problem).run s).1
     List.Forall₂ (fun p m => p.stepSize ≤ (m : ℝ)) out.2.progress out.2.innerIterations) := by
  refine ⟨?_, fun k it t i h => (distance_of_ends_outerIteration h).2, ?_⟩
  · intro out
    have hends : Ends (method.solve opt x₀) out.2 out.1 := ends_recordOn _ s
    rw [Method.solve_eq] at hends
    obtain ⟨stages, h⟩ := ends_minimize_iff.mp hends
    exact ⟨stages, h, Method.local_of_minimizes (Options.validate_eq_ok_iff.mp hopt) h⟩
  · intro out
    have hends : Ends (augmentedLagrangian opt lagOpt x₀) out.2 out.1 := ends_recordOn _ s
    rcases of_ends_augmentedLagrangian hends with ⟨e, -, hfirst⟩ | ⟨a, f, u, -, -, -, -, -, ht, h⟩
    · have hprogress : out.2.progress = [] := by
        rw [Transcript.progress, List.filterMap_eq_nil_iff]
        rintro ⟨q, a⟩ hx
        rcases hfirst _ hx with rfl | rfl <;> rfl
      have hinner : out.2.innerIterations = [] := by
        rw [Transcript.innerIterations_eq_nil_iff]
        intro x hx
        rcases hfirst x hx with hq | hq <;> rw [hq] <;> rfl
      rw [hprogress, hinner]
      exact .nil
    · rw [ht]
      have hlocal := local_of_ends_outerDescend h
      exact hlocal

/-- Runs on a sum of squares whose sign alternates from call to call, with one constraint. -/
theorem local_of_recordOn_alternatingSquares :
    let problem : Callbacks (StateM Bool) ℝ := {
      objective := fun x up => (if up then Vec.dot x x else -Vec.dot x x, !up)
      constraints := fun x => pure ⟨x, []⟩
      gradient := fun x h => pure (.central x h)
      update := fun b dx dg => pure (UpdateRule.bfgs b dx dg)
      progress := fun _ => pure ()
      note := fun _ => pure () }
    let opt : Options ℝ := { Options.default with maxIt := 20 }
    let out := (((quasiNewton opt [3, 4]).recordOn problem).run true).1
    let out' := (((augmentedLagrangian opt .default [3, 4]).recordOn problem).run true).1
    opt.validate = .ok () ∧ out.2.AddsNoRows ∧
      (∃ stages, out.2.Local .quasiNewton opt [3, 4] stages out.1 ∧
        ∀ e ∈ out.2.progress.zip stages,
          ¬ (unitDirection Strategy.quasiNewton e.2.k e.2.it e.2.memory).IsZero →
            e.1.stepSize = e.1.alpha) ∧
      List.Forall₂ (fun p m => p.stepSize ≤ (m : ℝ)) out'.2.progress out'.2.innerIterations := by
  intro problem opt out out'
  have hopt : opt.validate = .ok () := Options.validate_eq_ok_iff.mpr
    (Options.fault?_eq_none_iff.mpr (Options.usable_default (by decide)))
  have hshape : problem.KeepsShape := fun _ _ _ _ _ h => UpdateRule.sameShape_of_bfgs h
  have hrows : out.2.AddsNoRows := hshape.recordOn.addsNoRows
  obtain ⟨⟨stages, -, hlocal⟩, -, houter⟩ :=
    local_of_recordOn problem hopt .default .quasiNewton [3, 4] true
  exact ⟨hopt, hrows, ⟨stages, hlocal, hlocal.moves fun _ => hrows⟩, houter⟩

/-! ### A rule that adds rows -/

/-- The sum of the elements, with forward differences, and an update rule whose changes have three rows
and one column. -/
noncomputable def tallRule {m : Type → Type} [Monad m] : Callbacks m ℝ where
  objective x := pure (total x)
  constraints _ := pure ⟨[], []⟩
  gradient x h := pure (.forward x h)
  update _ _ _ := pure (.ok (.ofFn 3 1 fun _ _ => 0))
  progress _ := pure ()
  note _ := pure ()

/-- What is known of a quasi-Newton run on it when an iteration begins: the approximation is a column
of `m` ones. -/
structure Slides (v : ℝ) (m : ℕ) (σ : Stage ℝ (Mat ℝ)) : Prop where
  /-- The iterate, whose gradient is one. -/
  it : σ.it = ⟨[v], v, [1]⟩
  /-- The approximation. -/
  rows : σ.memory.rows = List.replicate m [1]
  /-- It has rows. -/
  pos : 0 < m

/-- Forward differences are exact, as the objective is linear. -/
theorem ends_iterate_tallRule {v h : ℝ} (hh : 0 < h) {it : Iterate ℝ}
    (hend : Ends (iterate [v] h) t (.ok it)) (ht : t.AnsweredBy tallRule) :
    it = ⟨[v], v, [1]⟩ := by
  obtain ⟨f, t', g, -, hg, rfl, rfl⟩ := ends_iterate_ok_iff.mp hend
  obtain ⟨plan, u, g', hu, rfl, hcheck⟩ := ends_finiteGradient_iff.mp hg
  obtain ⟨-, -, rfl⟩ := checkGradient_eq_ok_iff.mp hcheck.symm
  obtain ⟨hf, hestimate⟩ := List.forall_mem_cons.mp ht
  obtain ⟨hplan, hvalues⟩ := List.forall_mem_cons.mp hestimate
  have hplan : plan = .forward [v] h := hplan
  rw [hplan] at hu
  obtain ⟨f₀, u', rfl, hrest⟩ := Dialogue.ends_ask_iff.mp hu
  obtain ⟨u₁, q, u₂, g', h₁, h₂, rfl, rfl⟩ := Plan.ends_mapM_cons_iff.mp hrest
  obtain ⟨f₁, u₃, rfl, h₃⟩ := Dialogue.ends_ask_iff.mp h₁
  obtain ⟨rfl, rfl⟩ := Dialogue.ends_done_iff.mp h₃
  obtain ⟨rfl, rfl⟩ := Dialogue.ends_done_iff.mp h₂
  obtain ⟨hf₀, hforth⟩ := List.forall_mem_cons.mp hvalues
  obtain ⟨hf₁, -⟩ := List.forall_mem_cons.mp hforth
  have hf : f = total [v] := hf
  have hf₀ : f₀ = total [v] := hf₀
  have hf₁ : f₁ = total [v + h] := hf₁
  simp [hf, hf₀, hf₁, hh.ne']

namespace Slides

variable {n m : ℕ} {v : ℝ} {σ : Stage ℝ (Mat ℝ)} {i : Iteration ℝ (Mat ℝ)}

theorem unitDirection_eq (hσ : Slides v m σ) :
    unitDirection (Method.quasiNewton.strategy n) σ.k σ.it σ.memory =
      List.replicate m (-(√(m : ℝ))⁻¹) := by
  have hroot : 0 < √(m : ℝ) := Real.sqrt_pos.mpr (Nat.cast_pos.mpr hσ.pos)
  have hdir : ((Method.quasiNewton.strategy n).direction σ.k σ.it σ.memory).1 =
      List.replicate m (-1) := by
    change Vec.neg (Mat.mulVec σ.memory σ.it.g) = _
    rw [Mat.mulVec, hσ.rows, hσ.it]
    simp [Vec.neg]
  have hnorm : Vec.norm (List.replicate m (-1)) = √(m : ℝ) := by
    simp [Vec.norm, Vec.dot, List.zipWith_self]
  change Vec.normalize _ = _
  rw [hdir, Vec.normalize, hnorm, if_pos hroot, Vec.scaleDown, List.map_replicate, neg_div,
    one_div]

/-- Each iteration takes the full step, of which only the first element counts. -/
theorem iteration (hσ : Slides v m σ) (hopt : opt.Usable)
    (h : Iterates (Method.quasiNewton.strategy n) opt σ t (.ok i)) (ht : t.AnsweredBy tallRule) :
    i.progress.alpha = 1 ∧ i.progress.stepSize = (√(m : ℝ))⁻¹ ∧ i.progress.gradNorm = 1 ∧
      Slides (v - (√(m : ℝ))⁻¹) m ⟨σ.k + 1, i.next, i.memory⟩ := by
  let c := (√(m : ℝ))⁻¹
  have hc : 0 < c := inv_pos.mpr (Real.sqrt_pos.mpr (Nat.cast_pos.mpr hσ.pos))
  obtain ⟨t₁, t₂, step, next, h₁, h₂, rfl, rfl⟩ := ends_iteration_ok_iff.mp h
  have hline : ∀ a, σ.it.x.along
      (unitDirection (Method.quasiNewton.strategy n) σ.k σ.it σ.memory) a = [v - a * c] := by
    intro a
    obtain ⟨l, hl⟩ := Nat.exists_eq_succ_of_ne_zero hσ.pos.ne'
    rw [hσ.unitDirection_eq, hσ.it, hl, List.replicate_succ]
    simp only [Vec.along, List.zipWith_cons_cons, List.zipWith_nil_left, c, hl, mul_neg,
      sub_eq_add_neg]
  have halpha : step.alpha = 1 := by
    refine alpha_eq_one_of_ends_lineSearch hopt.lineTol h₁ ht.left.left.objectiveIs ?_ ?_
    · intro a ha
      rw [hline, hline]
      change total _ < total _
      simpa using mul_lt_of_lt_one_left hc ha
    · rw [hline, hσ.it]
      change total _ < v
      simpa using hc
  rw [hline, halpha, one_mul] at h₂
  have hnext := ends_iterate_tallRule hopt.fdStep.1 h₂ ht.left.right
  refine ⟨halpha, ?_, ?_, hnext, hσ.rows, hσ.pos⟩
  · change Vec.distance next.x σ.it.x = c
    rw [hnext, hσ.it]
    simp [Vec.distance, Real.sqrt_mul_self hc.le]
  · change Vec.norm next.g = 1
    rw [hnext]
    simp [Vec.norm]

/-- The rule gives a single row two more. -/
theorem absorb {prev next : Iterate ℝ} {k : ℕ} {b b' : Mat ℝ} (hσ : Slides v 1 ⟨k, next, b⟩)
    (h : Ends ((Method.quasiNewton.strategy n).absorb prev next b) t (.ok b'))
    (ht : t.AnsweredBy tallRule) : Slides v 3 ⟨k, next, b'⟩ := by
  refine ⟨hσ.it, ?_, Nat.succ_pos _⟩
  obtain ⟨answer, rfl, hb'⟩ := Strategy.ends_absorb_quasiNewton_iff.mp h
  have hanswer : answer = .ok (.ofFn 3 1 fun _ _ => 0) := ht _ List.mem_cons_self
  subst hanswer
  cases hb'
  obtain ⟨width, rows, huniform⟩ := b
  have hrows : rows = [[1]] := hσ.rows
  subst hrows
  obtain rfl : 1 = width := huniform [1] List.mem_cons_self
  simp [Mat.add, Mat.Addable, Mat.ofFn, Mat.height, Mat.stretchTo, Mat.stretch, Mat.addEntries,
    Vec.add, List.range_succ]

/-- With three rows the step is shorter than its parameter says. -/
theorem exists_shorter {stages : List (Stage ℝ (Mat ℝ))} {sol : Solution ℝ} (hσ : Slides v 3 σ)
    (hopt : opt.Usable)
    (h : Descends (Method.quasiNewton.strategy n) opt 0 σ t stages (.ok sol))
    (ht : t.AnsweredBy tallRule) : ∃ p ∈ t.progress, p.stepSize ≠ p.alpha ∧ p.stepSize ≠ 0 := by
  cases h with
  | stops h₁ _ =>
    obtain ⟨halpha, hsize, -⟩ := hσ.iteration hopt h₁ ht.left
    have hone : √((3 : ℕ) : ℝ) ≠ 1 := by
      rw [Ne, Real.sqrt_eq_one]
      norm_num
    have hzero : √((3 : ℕ) : ℝ) ≠ 0 := Real.sqrt_ne_zero'.mpr (by norm_num)
    rw [Transcript.progress_append, (views_of_ends_iteration h₁).2]
    refine ⟨_, List.mem_cons_self, ?_⟩
    rw [halpha, hsize]
    exact ⟨mt inv_eq_one.mp hone, inv_ne_zero hzero⟩

end Slides

/-- With a rule that adds rows a step may be shorter than its parameter says: after the first update
the unit direction has three elements for the one coordinate. -/
theorem not_local_of_recordOn_tallRule :
    let problem : Callbacks (StateM Unit) ℝ := tallRule
    let opt : Options ℝ := { Options.default with maxIt := 2 }
    let out := (((quasiNewton opt [0]).recordOn problem).run ()).1
    opt.validate = .ok () ∧ ∃ p ∈ out.2.progress, p.stepSize ≠ p.alpha ∧ p.stepSize ≠ 0 := by
  intro problem opt out
  have husable : opt.Usable := Options.usable_default (by decide)
  have hfault : opt.fault? = none := Options.fault?_eq_none_iff.mpr husable
  have hagrees : problem.Agrees tallRule := fun q _ => by cases q <;> rfl
  have ht : out.2.AnsweredBy tallRule := hagrees.recordOn
  have hharmless : out.2.Harmless :=
    ⟨fun x h plan hx => Or.inl (ht _ hx), fun b dx dg e hx => nomatch ht _ hx⟩
  have hends : Ends (Method.quasiNewton.solve opt [0]) out.2 out.1 := ends_recordOn _ ()
  obtain ⟨sol, hsol⟩ := Method.succeeds_of_ends hends hfault (List.cons_ne_nil _ _) hharmless
  refine ⟨Options.validate_eq_ok_iff.mpr hfault, ?_⟩
  rw [hsol, Method.solve_eq] at hends
  obtain ⟨stages, hruns⟩ := ends_minimize_iff.mp hends
  generalize out.2 = t at ht hruns
  cases hruns with
  | @descends t₀ u it _ _ _ _ h₁ h₂ =>
    have hleft : opt.maxIt - 1 = 1 := rfl
    rw [hleft] at h₂
    have hstart : Slides 0 1 ⟨0, it, Mat.identity 1⟩ :=
      ⟨ends_iterate_tallRule husable.fdStep.1 h₁ ht.left, by simp [Mat.identity, Mat.ofFn],
        Nat.one_pos⟩
    cases h₂ with
    | @stops _ _ _ i _ h₃ hflag =>
      -- a step of length one meets no tolerance
      obtain ⟨-, hsize, hgrad, hnext⟩ := hstart.iteration husable h₃ ht.right.left
      have hnone : opt.exitAfter 1 it i = none := Options.toleranceMet_eq_none_iff.mpr (by
        have hit : it = ⟨[0], 0, [1]⟩ := hstart.it
        have hf : i.next.f = 0 - (√((1 : ℕ) : ℝ))⁻¹ := congrArg Iterate.f hnext.it
        rw [hgrad, hsize, hf, hit]
        change ¬ (1 : ℝ) ≤ 1e-6 ∧ ¬ _ ≤ (1e-9 : ℝ) ∧ ¬ _ ≤ (1e-9 : ℝ)
        norm_num)
      cases hflag.symm.trans hnone
    | goesOn h₃ _ h₄ h₅ =>
      obtain ⟨-, -, -, hnext⟩ := hstart.iteration husable h₃ ht.right.left.left
      have hsecond := hnext.absorb h₄ ht.right.left.right
      obtain ⟨p, hp, hshorter⟩ := hsecond.exists_shorter husable h₅ ht.right.right
      simp only [Transcript.progress_append]
      exact ⟨p, List.mem_append_right _ (List.mem_append_right _ hp), hshorter⟩

end Run

end Optimum

import Mathlib.Logic.Basic
import Mathlib.Tactic.SplitIfs
import Optimum.Methods
import Optimum.Proofs.LineSearch.Paths

/-!
# Paths of descents

A descent passes from stage to stage: at the beginning of each iteration it knows the number of
the iteration, the iterate, and what its method remembers. `Descends` and `Minimizes` relate a
transcript and an outcome to the stages passed, with one rule for each way in which an iteration
can go on or end the run.

## What is proved

* `ends_descend_iff` and `ends_minimize_iff`: the rules are the loop, no more and no less. Proofs
  about whole runs are inductions on `Descends`.
* `Descends.forall_history` and `Descends.forall_stages`: what every iteration preserves holds at every
  stage.
-/

namespace Optimum

open Scalar

variable {α : Type} [Scalar α]

namespace Run

/-! ### Evaluation -/

theorem ends_finiteObjective_iff {x : Vec α} {t : Transcript α} {r : Except (Failure α) α} :
    Ends (finiteObjective x) t r ↔ ∃ v, t = [⟨.objective x, v⟩] ∧
      r = if isFinite v then .ok v else .error (.nonFiniteValue .objective) := by
  rw [finiteObjective, objective, ends_query_bind_iff]
  constructor
  · intro h
    obtain ⟨v, t', rfl, h⟩ := h
    refine ⟨v, ?_⟩
    split at h
    · obtain ⟨rfl, rfl⟩ := ends_pure_iff.mp h
      simp [*]
    · obtain ⟨rfl, rfl⟩ := ends_throw_iff.mp h
      simp [*]
  · intro h
    obtain ⟨v, rfl, rfl⟩ := h
    refine ⟨v, [], rfl, ?_⟩
    split
    · exact ends_pure_iff.mpr ⟨rfl, rfl⟩
    · exact ends_throw_iff.mpr ⟨rfl, rfl⟩

/-- A gradient estimate that has an element for each coordinate, all finite. -/
def checkGradient (x g : Vec α) : Except (Failure α) (Vec α) :=
  if g.length ≠ x.length then .error (.dimensionMismatch .gradient x.length g.length)
  else if ¬ Scalar.allFinite g then .error (.nonFiniteValue .gradient)
  else .ok g

theorem checkGradient_eq_ok_iff {x g g' : Vec α} :
    checkGradient x g = .ok g' ↔ g.length = x.length ∧ Scalar.allFinite g = true ∧ g' = g := by
  unfold checkGradient
  split
  next hlen =>
    constructor
    · intro h
      cases h
    · exact fun h => absurd h.1 hlen
  next hlen =>
    split
    next hfin =>
      constructor
      · intro h
        cases h
      · exact fun h => absurd h.2.1 hfin
    next hfin =>
      constructor
      · intro h
        cases h
        exact ⟨not_not.mp hlen, not_not.mp hfin, rfl⟩
      · intro h
        obtain ⟨-, -, rfl⟩ := h
        rfl

theorem ends_finiteGradient_iff {x : Vec α} {h : α} {t : Transcript α}
    {r : Except (Failure α) (Vec α)} :
    Ends (finiteGradient x h) t r ↔ ∃ plan u g, plan.Ends u g ∧
      t = ⟨.gradient x h, plan⟩ :: ofPlan u ∧ r = checkGradient x g := by
  have check : ∀ g t' r', Ends (if g.length ≠ x.length then
      throw (.dimensionMismatch .gradient x.length g.length)
      else if ¬ Scalar.allFinite g then throw (.nonFiniteValue .gradient) else pure g) t' r' ↔
      t' = [] ∧ r' = checkGradient x g := by
    intro g t' r'
    unfold checkGradient
    split
    · exact ends_throw_iff
    · split
      · exact ends_throw_iff
      · exact ends_pure_iff
  rw [finiteGradient, ends_bind_iff]
  constructor
  · intro h
    rcases h with ⟨e, h₁, rfl⟩ | ⟨t₁, g, t₂, h₁, h₂, rfl⟩
    · obtain ⟨plan, u, g, -, -, h⟩ := ends_gradient_iff.mp h₁
      cases h
    · obtain ⟨plan, u, g', hu, rfl, h⟩ := ends_gradient_iff.mp h₁
      cases h
      obtain ⟨rfl, rfl⟩ := (check _ _ _).mp h₂
      exact ⟨plan, u, g, hu, by simp, rfl⟩
  · intro h
    obtain ⟨plan, u, g, hu, rfl, rfl⟩ := h
    exact Or.inr ⟨_, g, [], ends_gradient_iff.mpr ⟨plan, u, g, hu, rfl, rfl⟩,
      (check _ _ _).mpr ⟨rfl, rfl⟩, by simp⟩

theorem ends_iterate_ok_iff {x : Vec α} {h : α} {t : Transcript α} {it : Iterate α} :
    Ends (iterate x h) t (.ok it) ↔ ∃ v t' g, isFinite v = true ∧
      Ends (finiteGradient x h) t' (.ok g) ∧ t = ⟨.objective x, v⟩ :: t' ∧ it = ⟨x, v, g⟩ := by
  rw [iterate, ends_bind_ok_iff]
  constructor
  · intro h
    obtain ⟨t₁, v, t₂, h₁, h₂, rfl⟩ := h
    obtain ⟨w, rfl, hw⟩ := ends_finiteObjective_iff.mp h₁
    obtain ⟨t₃, g, t₄, h₃, h₄, rfl⟩ := ends_bind_ok_iff.mp h₂
    obtain ⟨rfl, hit⟩ := ends_pure_iff.mp h₄
    split at hw
    next hfin =>
      cases hw
      cases hit
      exact ⟨v, t₃, g, hfin, h₃, by simp, rfl⟩
    next => cases hw
  · intro h
    obtain ⟨v, t', g, hfin, hg, rfl, rfl⟩ := h
    refine ⟨[_], v, t', ends_finiteObjective_iff.mpr ⟨v, rfl, (if_pos hfin).symm⟩, ?_, rfl⟩
    exact ends_bind_ok_iff.mpr ⟨t', g, [], hg, ends_pure_iff.mpr ⟨rfl, rfl⟩, by simp⟩

theorem ends_iterate_error_iff {x : Vec α} {h : α} {t : Transcript α} {e : Failure α} :
    Ends (iterate x h) t (.error e) ↔
      (∃ v, isFinite v = false ∧ t = [⟨.objective x, v⟩] ∧ e = .nonFiniteValue .objective) ∨
        ∃ v t', isFinite v = true ∧ Ends (finiteGradient x h) t' (.error e) ∧
          t = ⟨.objective x, v⟩ :: t' := by
  rw [iterate, ends_bind_error_iff]
  constructor
  · intro h
    rcases h with h₁ | ⟨t₁, v, t₂, h₁, h₂, rfl⟩
    · obtain ⟨v, rfl, hv⟩ := ends_finiteObjective_iff.mp h₁
      split at hv
      next => cases hv
      next hfin =>
        cases hv
        exact Or.inl ⟨v, by simpa using hfin, rfl, rfl⟩
    · obtain ⟨w, rfl, hw⟩ := ends_finiteObjective_iff.mp h₁
      split at hw
      next hfin =>
        cases hw
        rcases ends_bind_error_iff.mp h₂ with h₃ | ⟨t₃, g, t₄, h₃, h₄, rfl⟩
        · exact Or.inr ⟨v, t₂, hfin, h₃, rfl⟩
        · obtain ⟨-, h⟩ := ends_pure_iff.mp h₄
          cases h
      next => cases hw
  · intro h
    rcases h with ⟨v, hv, rfl, rfl⟩ | ⟨v, t', hfin, hg, rfl⟩
    · exact Or.inl (ends_finiteObjective_iff.mpr ⟨v, rfl, by simp [hv]⟩)
    · refine Or.inr ⟨[_], v, t', ends_finiteObjective_iff.mpr ⟨v, rfl, (if_pos hfin).symm⟩, ?_, rfl⟩
      exact ends_bind_error_iff.mpr (.inl hg)

/-- An iterate is at the point given, and its gradient estimate has an element for each
coordinate. -/
theorem shape_of_ends_iterate {x : Vec α} {h : α} {t : Transcript α} {it : Iterate α}
    (hend : Ends (iterate x h) t (.ok it)) : it.x = x ∧ it.g.length = x.length := by
  obtain ⟨v, t', g, -, hg, -, rfl⟩ := ends_iterate_ok_iff.mp hend
  obtain ⟨plan, u, g', -, -, hcheck⟩ := ends_finiteGradient_iff.mp hg
  obtain ⟨hlen, -, rfl⟩ := checkGradient_eq_ok_iff.mp hcheck.symm
  exact ⟨rfl, hlen⟩

/-- An iterate is the point where the gradient was asked for. -/
theorem iterates_of_ends_iterate {x : Vec α} {h : α} {t : Transcript α} {it : Iterate α}
    (hend : Ends (iterate x h) t (.ok it)) : it.x = x ∧ t.iterates = [x] := by
  obtain ⟨v, t', g, -, hg, rfl, rfl⟩ := ends_iterate_ok_iff.mp hend
  obtain ⟨plan, u, g', -, rfl, -⟩ := ends_finiteGradient_iff.mp hg
  exact ⟨rfl, congrArg (x :: ·) (Transcript.iterates_ofPlan u)⟩

/-- No gradient is asked for anywhere else, also if the evaluation fails. -/
theorem mem_iterates_of_ends_iterate {x : Vec α} {h : α} {t : Transcript α}
    {r : Except (Failure α) (Iterate α)} (hend : Ends (iterate x h) t r) {y : Vec α}
    (hy : y ∈ t.iterates) : y = x := by
  cases r with
  | ok it =>
    rw [(iterates_of_ends_iterate hend).2] at hy
    exact List.mem_singleton.mp hy
  | error e =>
    rcases ends_iterate_error_iff.mp hend with ⟨v, -, rfl, -⟩ | ⟨v, t', -, hg, rfl⟩
    · exact absurd hy List.not_mem_nil
    · obtain ⟨plan, u, g, -, rfl, -⟩ := ends_finiteGradient_iff.mp hg
      change y ∈ x :: Transcript.iterates (ofPlan u) at hy
      rw [Transcript.iterates_ofPlan] at hy
      exact List.mem_singleton.mp hy

theorem progress_of_ends_iterate {x : Vec α} {h : α} {t : Transcript α}
    {r : Except (Failure α) (Iterate α)} (hend : Ends (iterate x h) t r) : t.progress = [] := by
  have ofGradient : ∀ {t' r'}, Ends (finiteGradient x h) t' r' → t'.progress = [] := by
    intro t' r' hg
    obtain ⟨plan, u, g, -, rfl, -⟩ := ends_finiteGradient_iff.mp hg
    exact Transcript.progress_ofPlan u
  cases r with
  | ok it =>
    obtain ⟨v, t', g, -, hg, rfl, -⟩ := ends_iterate_ok_iff.mp hend
    rw [Transcript.progress_objective_cons]
    exact ofGradient hg
  | error e =>
    rcases ends_iterate_error_iff.mp hend with ⟨v, -, rfl, -⟩ | ⟨v, t', -, hg, rfl⟩
    · rfl
    · rw [Transcript.progress_objective_cons]
      exact ofGradient hg

theorem evaluates_of_ends_finiteGradient {x : Vec α} {h : α} {t : Transcript α}
    {r : Except (Failure α) (Vec α)} (hend : Ends (finiteGradient x h) t r) : t.Evaluates := by
  obtain ⟨plan, u, g, -, rfl, -⟩ := ends_finiteGradient_iff.mp hend
  exact List.forall_mem_cons.mpr ⟨⟨nofun, nofun⟩, Transcript.evaluates_ofPlan u⟩

theorem evaluates_of_ends_iterate {x : Vec α} {h : α} {t : Transcript α}
    {r : Except (Failure α) (Iterate α)} (hend : Ends (iterate x h) t r) : t.Evaluates := by
  cases r with
  | ok it =>
    obtain ⟨v, t', g, -, hg, rfl, -⟩ := ends_iterate_ok_iff.mp hend
    exact Transcript.evaluates_objective_cons_iff.mpr (evaluates_of_ends_finiteGradient hg)
  | error e =>
    rcases ends_iterate_error_iff.mp hend with ⟨v, -, rfl, -⟩ | ⟨v, t', -, hg, rfl⟩
    · exact Transcript.evaluates_objective_cons_iff.mpr nofun
    · exact Transcript.evaluates_objective_cons_iff.mpr (evaluates_of_ends_finiteGradient hg)

/-! ### One iteration -/

variable {S : Type} {strategy : Strategy α S} {opt : Options α}

/-- Iteration number `k` from an iterate, given the step taken and the iterate it leads to. -/
def completed (strategy : Strategy α S) (k : Nat) (it : Iterate α) (memory : S) (step : Step α)
    (next : Iterate α) : Iteration α S where
  direction := (strategy.direction k it memory).1
  step := step
  next := next
  memory := (strategy.direction k it memory).2
  progress := ⟨k + 1, next.f, Vec.norm next.g, Vec.distance next.x it.x, step.alpha⟩

/-- What is said after an iteration. -/
def announced (p : Progress α) : Transcript α := [⟨.note (.iteration p), ()⟩, ⟨.progress p, ()⟩]

/-- The unit direction of an iteration. -/
def unitDirection (strategy : Strategy α S) (k : Nat) (it : Iterate α) (memory : S) : Vec α :=
  (strategy.direction k it memory).1.normalize

private theorem iteration_eq (k : Nat) (it : Iterate α) (memory : S) :
    iteration strategy opt k it memory = (do
      let step ← lineSearch opt it.x (unitDirection strategy k it memory) it.f
      let next ← iterate (it.x.along (unitDirection strategy k it memory) step.alpha) opt.fdStep
      let i := completed strategy k it memory step next
      note (.iteration i.progress)
      progress i.progress
      pure i) := by
  simp only [iteration, stepAlong, bind_assoc, pure_bind]
  rfl

theorem ends_iteration_ok_iff {k : Nat} {it : Iterate α} {memory : S} {t : Transcript α}
    {i : Iteration α S} :
    Ends (iteration strategy opt k it memory) t (.ok i) ↔ ∃ t₁ t₂ step next,
      Ends (lineSearch opt it.x (unitDirection strategy k it memory) it.f) t₁ (.ok step) ∧
      Ends (iterate (it.x.along (unitDirection strategy k it memory) step.alpha) opt.fdStep) t₂
        (.ok next) ∧
      i = completed strategy k it memory step next ∧ t = t₁ ++ t₂ ++ announced i.progress := by
  rw [iteration_eq, ends_bind_ok_iff]
  constructor
  · intro h
    obtain ⟨t₁, step, t', h₁, h', rfl⟩ := h
    obtain ⟨t₂, next, t₃, h₂, h₃, rfl⟩ := ends_bind_ok_iff.mp h'
    obtain ⟨t₄, rfl, h₄⟩ := ends_note_bind_iff.mp h₃
    obtain ⟨t₅, rfl, h₅⟩ := ends_progress_bind_iff.mp h₄
    obtain ⟨rfl, h⟩ := ends_pure_iff.mp h₅
    cases h
    exact ⟨t₁, t₂, step, next, h₁, h₂, rfl, by simp [announced]⟩
  · intro h
    obtain ⟨t₁, t₂, step, next, h₁, h₂, rfl, rfl⟩ := h
    rw [List.append_assoc]
    refine ⟨t₁, step, _, h₁, ends_bind_ok_iff.mpr ⟨t₂, next, _, h₂, ?_, rfl⟩, rfl⟩
    exact ends_note_bind_iff.mpr ⟨_, rfl, ends_progress_bind_iff.mpr
      ⟨[], rfl, ends_pure_iff.mpr ⟨rfl, rfl⟩⟩⟩

theorem ends_iteration_error_iff {k : Nat} {it : Iterate α} {memory : S} {t : Transcript α}
    {e : Failure α} :
    Ends (iteration strategy opt k it memory) t (.error e) ↔
      Ends (lineSearch opt it.x (unitDirection strategy k it memory) it.f) t (.error e) ∨
      ∃ t₁ t₂ step,
        Ends (lineSearch opt it.x (unitDirection strategy k it memory) it.f) t₁ (.ok step) ∧
        Ends (iterate (it.x.along (unitDirection strategy k it memory) step.alpha) opt.fdStep) t₂
          (.error e) ∧ t = t₁ ++ t₂ := by
  rw [iteration_eq, ends_bind_error_iff]
  constructor
  · intro h
    rcases h with h | ⟨t₁, step, t', h₁, h', rfl⟩
    · exact Or.inl h
    rcases ends_bind_error_iff.mp h' with h₂ | ⟨t₂, next, t₃, -, h₃, rfl⟩
    · exact Or.inr ⟨t₁, t', step, h₁, h₂, rfl⟩
    · obtain ⟨t₄, rfl, h₄⟩ := ends_note_bind_iff.mp h₃
      obtain ⟨t₅, rfl, h₅⟩ := ends_progress_bind_iff.mp h₄
      obtain ⟨-, h⟩ := ends_pure_iff.mp h₅
      cases h
  · intro h
    rcases h with h | ⟨t₁, t₂, step, h₁, h₂, rfl⟩
    · exact Or.inl h
    · exact Or.inr ⟨t₁, step, t₂, h₁, ends_bind_error_iff.mpr (.inl h₂), rfl⟩

/-- A completed iteration passes to one new iterate, and tells the monitor once. -/
theorem views_of_ends_iteration {k : Nat} {it : Iterate α} {memory : S} {t : Transcript α}
    {i : Iteration α S} (h : Ends (iteration strategy opt k it memory) t (.ok i)) :
    t.iterates = [i.next.x] ∧ t.progress = [i.progress] := by
  obtain ⟨t₁, t₂, step, next, h₁, h₂, rfl, rfl⟩ := ends_iteration_ok_iff.mp h
  obtain ⟨hx, hit⟩ := iterates_of_ends_iterate h₂
  obtain ⟨hit₁, hp₁, -⟩ := views_of_ends_lineSearch h₁
  simp only [Transcript.iterates_append, Transcript.progress_append, hit₁, hp₁, hit,
    progress_of_ends_iterate h₂, ← hx]
  exact ⟨rfl, rfl⟩

/-- An iteration that fails does not tell the monitor. -/
theorem progress_of_ends_iteration_error {k : Nat} {it : Iterate α} {memory : S}
    {t : Transcript α} {e : Failure α}
    (h : Ends (iteration strategy opt k it memory) t (.error e)) : t.progress = [] := by
  rcases ends_iteration_error_iff.mp h with h₁ | ⟨t₁, t₂, step, h₁, h₂, rfl⟩
  · exact (views_of_ends_lineSearch h₁).2.1
  · rw [Transcript.progress_append, (views_of_ends_lineSearch h₁).2.1, progress_of_ends_iterate h₂]
    rfl

/-- If it has estimated a gradient, that was at a point of its line. -/
theorem exists_along_of_ends_iteration_error {k : Nat} {it : Iterate α} {memory : S}
    {t : Transcript α} {e : Failure α}
    (h : Ends (iteration strategy opt k it memory) t (.error e)) {x : Vec α} (hx : x ∈ t.iterates) :
    ∃ a, x = it.x.along (unitDirection strategy k it memory) a := by
  rcases ends_iteration_error_iff.mp h with h₁ | ⟨t₁, t₂, step, h₁, h₂, rfl⟩
  · rw [(views_of_ends_lineSearch h₁).1] at hx
    cases hx
  · rw [Transcript.iterates_append, (views_of_ends_lineSearch h₁).1, List.nil_append] at hx
    exact ⟨step.alpha, mem_iterates_of_ends_iterate h₂ hx⟩

/-- An iteration evaluates, and does not call the update rule. -/
theorem evaluates_of_ends_iteration {k : Nat} {it : Iterate α} {memory : S} {t : Transcript α}
    {r : Except (Failure α) (Iteration α S)}
    (h : Ends (iteration strategy opt k it memory) t r) : t.Evaluates := by
  cases r with
  | ok i =>
    obtain ⟨t₁, t₂, step, next, h₁, h₂, rfl, rfl⟩ := ends_iteration_ok_iff.mp h
    simp only [Transcript.evaluates_append_iff]
    refine ⟨⟨(views_of_ends_lineSearch h₁).2.2, evaluates_of_ends_iterate h₂⟩, ?_⟩
    simp [Transcript.Evaluates, announced]
  | error e =>
    rcases ends_iteration_error_iff.mp h with h₁ | ⟨t₁, t₂, step, h₁, h₂, rfl⟩
    · exact (views_of_ends_lineSearch h₁).2.2
    · exact Transcript.evaluates_append_iff.mpr
        ⟨(views_of_ends_lineSearch h₁).2.2, evaluates_of_ends_iterate h₂⟩

/-! ### The loop -/

end Run

namespace Options

/-- Options that a run can use. -/
structure Usable (opt : Options α) : Prop where
  /-- The tolerance on the gradient is not negative. -/
  gradTol : 0 ≤ opt.gradTol
  /-- The tolerance on the change of the objective is not negative. -/
  deltaFTol : 0 ≤ opt.deltaFTol
  /-- The tolerance on the step is not negative. -/
  deltaXTol : 0 ≤ opt.deltaXTol
  /-- An iteration is allowed. -/
  maxIt : opt.maxIt ≠ 0
  /-- The difference step is positive and finite. -/
  fdStep : 0 < opt.fdStep ∧ isFinite opt.fdStep = true
  /-- The tolerance of the line search is positive. -/
  lineTol : 0 < opt.lineTol
  /-- A line search may look inside its interval. -/
  lineMaxFev : 2 ≤ opt.lineMaxFev

theorem fault?_eq_none_iff {opt : Options α} : opt.fault? = none ↔ opt.Usable := by
  unfold fault?
  constructor
  · intro h
    split_ifs at h with h₁ h₂ h₃ h₄ h₅ h₆ h₇
    exact ⟨h₁, h₂, h₃, h₄, h₅, h₆, Nat.not_lt.mp h₇⟩
  · intro h
    obtain ⟨h₁, h₂, h₃, h₄, h₅, h₆, h₇⟩ := h
    rw [if_neg (not_not.mpr h₁), if_neg (not_not.mpr h₂), if_neg (not_not.mpr h₃), if_neg h₄,
      if_neg (not_not.mpr h₅), if_neg (not_not.mpr h₆), if_neg (Nat.not_lt.mpr h₇)]

theorem toleranceMet_eq_none_iff {opt : Options α} {gradNorm stepNorm deltaF : α} :
    opt.toleranceMet gradNorm stepNorm deltaF = none ↔
      ¬ gradNorm ≤ opt.gradTol ∧ ¬ stepNorm ≤ opt.deltaXTol ∧ ¬ deltaF ≤ opt.deltaFTol := by
  unfold toleranceMet
  split_ifs <;> simp [*]

end Options

/-- What a descent knows when an iteration begins. -/
structure Stage (α S : Type) where
  /-- The number of the iteration, from zero. -/
  k : Nat
  /-- The iterate. -/
  it : Iterate α
  /-- What the method remembers. -/
  memory : S

/-- The exit test after an iteration, if `left` more are allowed. -/
def Options.exitAfter {S : Type} (opt : Options α) :
    (left : Nat) → Iterate α → Iteration α S → Option ExitFlag
  | 0, _, _ => some .maxIterations
  | _ + 1, it, i =>
    opt.toleranceMet i.progress.gradNorm i.progress.stepSize (magnitude (i.next.f - it.f))

namespace Run

variable {S : Type}

/-- Iteration number `σ.k` of a descent, with transcript `t`, gives `i`. -/
abbrev Iterates (strategy : Strategy α S) (opt : Options α) (σ : Stage α S) (t : Transcript α)
    (r : Except (Failure α) (Iteration α S)) : Prop :=
  Ends (iteration strategy opt σ.k σ.it σ.memory) t r

/-- From a stage, with at most `left` iterations after the next, a descent passes the given
stages and has an outcome. -/
inductive Descends (strategy : Strategy α S) (opt : Options α) :
    Nat → Stage α S → Transcript α → List (Stage α S) → Except (Failure α) (Solution α) → Prop where
  /-- The iteration fails. -/
  | fails {left : Nat} {σ : Stage α S} {t : Transcript α} {e : Failure α} :
      Iterates strategy opt σ t (.error e) → Descends strategy opt left σ t [σ] (.error e)
  /-- The iteration meets an exit test. -/
  | stops {left : Nat} {σ : Stage α S} {t : Transcript α} {i : Iteration α S} {flag : ExitFlag} :
      Iterates strategy opt σ t (.ok i) → opt.exitAfter left σ.it i = some flag →
      Descends strategy opt left σ (t ++ Note.written [.exit flag (σ.k + 1)]) [σ]
        (.ok ⟨i.next.x, i.next.f, flag, σ.k + 1⟩)
  /-- The iteration meets no exit test, but the method cannot learn from it. -/
  | refuses {left : Nat} {σ : Stage α S} {t u : Transcript α} {i : Iteration α S} {e : Failure α} :
      Iterates strategy opt σ t (.ok i) → opt.exitAfter (left + 1) σ.it i = none →
      Ends (strategy.absorb σ.it i.next i.memory) u (.error e) →
      Descends strategy opt (left + 1) σ (t ++ u) [σ] (.error e)
  /-- The iteration is followed by the next one. -/
  | goesOn {left : Nat} {σ : Stage α S} {t u v : Transcript α} {i : Iteration α S} {memory : S}
      {stages : List (Stage α S)} {r : Except (Failure α) (Solution α)} :
      Iterates strategy opt σ t (.ok i) → opt.exitAfter (left + 1) σ.it i = none →
      Ends (strategy.absorb σ.it i.next i.memory) u (.ok memory) →
      Descends strategy opt left ⟨σ.k + 1, i.next, memory⟩ v stages r →
      Descends strategy opt (left + 1) σ (t ++ u ++ v) (σ :: stages) r

/-- A whole run of a method: the options are faulty, the design vector is empty, the starting
point cannot be evaluated, or the run descends from it. -/
inductive Minimizes (strategy : Strategy α S) (memory : S) (opt : Options α) (x₀ : Vec α) :
    Transcript α → List (Stage α S) → Except (Failure α) (Solution α) → Prop where
  /-- The options are faulty. -/
  | unusable {fault : OptionFault α} : opt.fault? = some fault →
      Minimizes strategy memory opt x₀ [] [] (.error (.invalidOptions fault))
  /-- There is nothing to design. -/
  | empty : opt.fault? = none → x₀ = [] →
      Minimizes strategy memory opt x₀ [] [] (.error .emptyDesignVector)
  /-- The starting point cannot be evaluated. -/
  | unstarted {t : Transcript α} {e : Failure α} : opt.fault? = none → x₀ ≠ [] →
      Ends (iterate x₀ opt.fdStep) t (.error e) → Minimizes strategy memory opt x₀ t [] (.error e)
  /-- The run descends. -/
  | descends {t u : Transcript α} {it : Iterate α} {stages : List (Stage α S)}
      {r : Except (Failure α) (Solution α)} : opt.fault? = none → x₀ ≠ [] →
      Ends (iterate x₀ opt.fdStep) t (.ok it) →
      Descends strategy opt (opt.maxIt - 1) ⟨0, it, memory⟩ u stages r →
      Minimizes strategy memory opt x₀ (t ++ u) stages r

variable {strategy : Strategy α S} {opt : Options α}

omit [Scalar α] in
theorem ends_finish_iff {i : Iteration α S} {flag : ExitFlag} {t : Transcript α}
    {r : Except (Failure α) (Solution α)} :
    Ends (finish i flag) t r ↔ t = Note.written [.exit flag i.progress.iteration] ∧
      r = .ok ⟨i.next.x, i.next.f, flag, i.progress.iteration⟩ := by
  rw [finish, ends_note_bind_iff]
  constructor
  · intro h
    obtain ⟨t', rfl, h⟩ := h
    obtain ⟨rfl, rfl⟩ := ends_pure_iff.mp h
    exact ⟨rfl, rfl⟩
  · intro h
    obtain ⟨rfl, rfl⟩ := h
    exact ⟨[], rfl, ends_pure_iff.mpr ⟨rfl, rfl⟩⟩

theorem iteration_of_iterates {σ : Stage α S} {t : Transcript α} {i : Iteration α S}
    (h : Iterates strategy opt σ t (.ok i)) : i.progress.iteration = σ.k + 1 := by
  obtain ⟨t₁, t₂, step, next, -, -, rfl, -⟩ := ends_iteration_ok_iff.mp h
  rfl

/-- The loop after an iteration. -/
theorem ends_descend_iff_of_left {left k : Nat} {it : Iterate α} {memory : S} {t : Transcript α}
    {r : Except (Failure α) (Solution α)} :
    Ends (descend strategy opt left k it memory) t r ↔
      (∃ e, Ends (iteration strategy opt k it memory) t (.error e) ∧ r = .error e) ∨
      ∃ t₁ i t₂, Ends (iteration strategy opt k it memory) t₁ (.ok i) ∧ t = t₁ ++ t₂ ∧
        ((∃ flag, opt.exitAfter left it i = some flag ∧ Ends (finish i flag) t₂ r) ∨
          ∃ l, left = l + 1 ∧ opt.exitAfter left it i = none ∧
            Ends (strategy.absorb it i.next i.memory >>= fun m =>
              descend strategy opt l (k + 1) i.next m) t₂ r) := by
  rw [descend, ends_bind_iff]
  refine or_congr Iff.rfl ?_
  constructor
  · intro h
    obtain ⟨t₁, i, t₂, h₁, h₂, rfl⟩ := h
    refine ⟨t₁, i, t₂, h₁, rfl, ?_⟩
    cases left with
    | zero => exact Or.inl ⟨.maxIterations, rfl, h₂⟩
    | succ l =>
      cases htol : opt.exitAfter (l + 1) it i with
      | some flag =>
        refine Or.inl ⟨flag, rfl, ?_⟩
        unfold Options.exitAfter at htol
        simpa only [htol] using h₂
      | none =>
        refine Or.inr ⟨l, rfl, rfl, ?_⟩
        unfold Options.exitAfter at htol
        simpa only [htol] using h₂
  · intro h
    obtain ⟨t₁, i, t₂, h₁, rfl, h₂⟩ := h
    refine ⟨t₁, i, t₂, h₁, ?_, rfl⟩
    rcases h₂ with ⟨flag, hflag, h₂⟩ | ⟨l, rfl, hnone, h₂⟩
    · cases left with
      | zero =>
        cases hflag
        exact h₂
      | succ l =>
        unfold Options.exitAfter at hflag
        simpa only [hflag] using h₂
    · unfold Options.exitAfter at hnone
      simpa only [hnone] using h₂

/-- **The rules of `Descends` are the loop.** -/
theorem ends_descend_iff {left k : Nat} {it : Iterate α} {memory : S} {t : Transcript α}
    {r : Except (Failure α) (Solution α)} :
    Ends (descend strategy opt left k it memory) t r ↔
      ∃ stages, Descends strategy opt left ⟨k, it, memory⟩ t stages r := by
  constructor
  · intro h
    induction left generalizing k it memory t with
    | zero =>
      rcases ends_descend_iff_of_left.mp h with ⟨e, h₁, rfl⟩ | ⟨t₁, i, t₂, h₁, rfl, h₂⟩
      · exact ⟨_, .fails h₁⟩
      rcases h₂ with ⟨flag, hflag, h₂⟩ | ⟨l, hl, -⟩
      · obtain ⟨rfl, rfl⟩ := ends_finish_iff.mp h₂
        rw [iteration_of_iterates (σ := ⟨k, it, memory⟩) h₁]
        exact ⟨_, .stops h₁ hflag⟩
      · cases hl
    | succ left ih =>
      rcases ends_descend_iff_of_left.mp h with ⟨e, h₁, rfl⟩ | ⟨t₁, i, t₂, h₁, rfl, h₂⟩
      · exact ⟨_, .fails h₁⟩
      rcases h₂ with ⟨flag, hflag, h₂⟩ | ⟨l, hl, hnone, h₂⟩
      · obtain ⟨rfl, rfl⟩ := ends_finish_iff.mp h₂
        rw [iteration_of_iterates (σ := ⟨k, it, memory⟩) h₁]
        exact ⟨_, .stops h₁ hflag⟩
      · cases hl
        rcases ends_bind_iff.mp h₂ with ⟨e, h₃, rfl⟩ | ⟨t₃, m, t₄, h₃, h₄, rfl⟩
        · exact ⟨_, .refuses h₁ hnone h₃⟩
        · obtain ⟨stages, h₅⟩ := ih h₄
          rw [← List.append_assoc]
          exact ⟨_, .goesOn h₁ hnone h₃ h₅⟩
  · intro h
    obtain ⟨stages, h⟩ := h
    generalize hσ : (⟨k, it, memory⟩ : Stage α S) = σ at h
    induction h generalizing k it memory with
    | fails h₁ =>
      subst hσ
      exact ends_descend_iff_of_left.mpr (.inl ⟨_, h₁, rfl⟩)
    | stops h₁ hflag =>
      subst hσ
      refine ends_descend_iff_of_left.mpr (.inr ⟨_, _, _, h₁, rfl, .inl ⟨_, hflag, ?_⟩⟩)
      rw [ends_finish_iff, iteration_of_iterates (σ := ⟨k, it, memory⟩) h₁]
      exact ⟨rfl, rfl⟩
    | refuses h₁ hnone h₂ =>
      subst hσ
      exact ends_descend_iff_of_left.mpr (.inr ⟨_, _, _, h₁, rfl, .inr ⟨_, rfl, hnone,
        ends_bind_iff.mpr (.inl ⟨_, h₂, rfl⟩)⟩⟩)
    | goesOn h₁ hnone h₂ _ ih =>
      subst hσ
      rw [List.append_assoc]
      exact ends_descend_iff_of_left.mpr (.inr ⟨_, _, _, h₁, rfl, .inr ⟨_, rfl, hnone,
        ends_bind_iff.mpr (.inr ⟨_, _, _, h₂, ih rfl, rfl⟩)⟩⟩)

private theorem minimize_eq (memory : S) (x₀ : Vec α) :
    minimize strategy memory opt x₀ = (do
      liftM opt.validate
      if x₀ = [] then throw .emptyDesignVector
      else do
        let it ← iterate x₀ opt.fdStep
        descend strategy opt (opt.maxIt - 1) 0 it memory) := by
  cases x₀ <;> rfl

/-- A run of a method with options that pass the check. -/
theorem minimize_of_valid (h : opt.validate = .ok ()) (memory : S) (x₀ : Vec α) :
    minimize strategy memory opt x₀ =
      if x₀ = [] then throw .emptyDesignVector
      else (do
        let it ← iterate x₀ opt.fdStep
        descend strategy opt (opt.maxIt - 1) 0 it memory) := by
  rw [minimize_eq, h]
  rfl

/-- **The rules of `Minimizes` are the run of a method.** -/
theorem ends_minimize_iff {memory : S} {x₀ : Vec α} {t : Transcript α}
    {r : Except (Failure α) (Solution α)} :
    Ends (minimize strategy memory opt x₀) t r ↔
      ∃ stages, Minimizes strategy memory opt x₀ t stages r := by
  rw [minimize_eq, ends_liftM_bind_iff]
  unfold Options.validate
  cases hf : opt.fault? with
  | some fault =>
    constructor
    · intro h
      rcases h with ⟨e, hv, rfl, rfl⟩ | ⟨⟨⟩, hv, -⟩
      · cases hv
        exact ⟨[], .unusable hf⟩
      · cases hv
    · intro h
      obtain ⟨stages, h⟩ := h
      cases h with
      | unusable h =>
        cases hf.symm.trans h
        exact Or.inl ⟨_, rfl, rfl, rfl⟩
      | empty h => cases hf.symm.trans h
      | unstarted h => cases hf.symm.trans h
      | descends h => cases hf.symm.trans h
  | none =>
    constructor
    · intro h
      rcases h with ⟨e, hv, -⟩ | ⟨⟨⟩, -, h⟩
      · cases hv
      split at h
      next hx =>
        obtain ⟨rfl, rfl⟩ := ends_throw_iff.mp h
        exact ⟨[], .empty hf hx⟩
      next hx =>
        rcases ends_bind_iff.mp h with ⟨e, h₁, rfl⟩ | ⟨t₁, it, t₂, h₁, h₂, rfl⟩
        · exact ⟨[], .unstarted hf hx h₁⟩
        · obtain ⟨stages, h₃⟩ := ends_descend_iff.mp h₂
          exact ⟨stages, .descends hf hx h₁ h₃⟩
    · intro h
      obtain ⟨stages, h⟩ := h
      refine Or.inr ⟨(), rfl, ?_⟩
      cases h with
      | unusable h => cases hf.symm.trans h
      | empty _ hx =>
        rw [if_pos hx]
        exact ends_throw_iff.mpr ⟨rfl, rfl⟩
      | unstarted _ hx h₁ =>
        rw [if_neg hx]
        exact ends_bind_iff.mpr (.inl ⟨_, h₁, rfl⟩)
      | descends _ hx h₁ h₂ =>
        rw [if_neg hx]
        exact ends_bind_iff.mpr (.inr ⟨_, _, _, h₁, ends_descend_iff.mpr ⟨_, h₂⟩, rfl⟩)

/-- What every iteration preserves, if the answers are as `P` says, holds at every stage, of the stages
passed before it and the stage itself. -/
theorem Descends.forall_history {P : Dialogue.Exchange (Answer α) → Prop}
    (Good : List (Stage α S) → Stage α S → Prop)
    (step : ∀ {history σ t i u m}, Good history σ → Iterates strategy opt σ t (.ok i) →
      Ends (strategy.absorb σ.it i.next i.memory) u (.ok m) → (∀ x ∈ t ++ u, P x) →
      Good (history ++ [σ]) ⟨σ.k + 1, i.next, m⟩)
    {left : Nat} {σ : Stage α S} {t : Transcript α} {stages : List (Stage α S)}
    {r : Except (Failure α) (Solution α)} (h : Descends strategy opt left σ t stages r)
    (history : List (Stage α S)) (hσ : Good history σ) (hP : ∀ x ∈ t, P x) :
    ∀ before τ after, stages = before ++ τ :: after → Good (history ++ before) τ := by
  have here : ∀ {history σ}, Good history σ → Good (history ++ []) σ := by
    intro history σ hσ
    rwa [List.append_nil]
  have alone : ∀ {history σ}, Good history σ → ∀ before τ after,
      [σ] = before ++ τ :: after → Good (history ++ before) τ := by
    intro history σ hσ before τ after heq
    cases before with
    | nil =>
      obtain ⟨rfl, -⟩ := List.cons.inj heq
      exact here hσ
    | cons c before => exact absurd (congrArg List.length heq) (by simp)
  induction h generalizing history with
  | fails _ => exact alone hσ
  | stops _ _ => exact alone hσ
  | refuses _ _ _ => exact alone hσ
  | goesOn h₁ _ h₂ _ ih =>
    intro before τ after heq
    cases before with
    | nil =>
      obtain ⟨rfl, -⟩ := List.cons.inj heq
      exact here hσ
    | cons c before =>
      obtain ⟨rfl, hrest⟩ := List.cons.inj heq
      rw [List.append_cons]
      refine ih _ (step hσ h₁ h₂ fun x hx => hP x ?_) (fun x hx => hP x ?_) before τ after hrest
      · exact List.mem_append_left _ hx
      · exact List.mem_append_right _ hx

/-- What every iteration preserves, if the answers are as `P` says, holds at every stage. -/
theorem Descends.forall_stages {P : Dialogue.Exchange (Answer α) → Prop} {Good : Stage α S → Prop}
    (step : ∀ {σ t i u m}, Good σ → Iterates strategy opt σ t (.ok i) →
      Ends (strategy.absorb σ.it i.next i.memory) u (.ok m) → (∀ x ∈ t ++ u, P x) →
      Good ⟨σ.k + 1, i.next, m⟩)
    {left : Nat} {σ : Stage α S} {t : Transcript α} {stages : List (Stage α S)}
    {r : Except (Failure α) (Solution α)} (h : Descends strategy opt left σ t stages r)
    (hσ : Good σ) (hP : ∀ x ∈ t, P x) : ∀ τ ∈ stages, Good τ := by
  intro τ hτ
  obtain ⟨before, after, heq⟩ := List.append_of_mem hτ
  exact h.forall_history (fun _ => Good) step [] hσ hP before τ after heq

/-- So it does in a run, if it holds where the run begins. -/
theorem Minimizes.forall_stages {P : Dialogue.Exchange (Answer α) → Prop}
    {Good : Stage α S → Prop} {memory : S} {x₀ : Vec α}
    (start : ∀ {t it}, Ends (iterate x₀ opt.fdStep) t (.ok it) → Good ⟨0, it, memory⟩)
    (step : ∀ {σ t i u m}, Good σ → Iterates strategy opt σ t (.ok i) →
      Ends (strategy.absorb σ.it i.next i.memory) u (.ok m) → (∀ x ∈ t ++ u, P x) →
      Good ⟨σ.k + 1, i.next, m⟩)
    {t : Transcript α} {stages : List (Stage α S)} {r : Except (Failure α) (Solution α)}
    (h : Minimizes strategy memory opt x₀ t stages r) (hP : ∀ x ∈ t, P x) :
    ∀ τ ∈ stages, Good τ := by
  cases h with
  | unusable _ => exact nofun
  | empty _ _ => exact nofun
  | unstarted _ _ _ => exact nofun
  | descends _ _ h₁ h₂ =>
    exact h₂.forall_stages step (start h₁) fun x hx => hP x (List.mem_append_right _ hx)

/-- What an iteration preserves if the changes that the update rule gives are as `Q` says. -/
theorem Minimizes.forall_stages_of_changes {Q : Mat α → Mat α → Prop} {Good : Stage α S → Prop}
    {memory : S} {x₀ : Vec α}
    (start : ∀ {t it}, Ends (iterate x₀ opt.fdStep) t (.ok it) → Good ⟨0, it, memory⟩)
    (step : ∀ {σ t i u m}, Good σ → Iterates strategy opt σ t (.ok i) →
      Ends (strategy.absorb σ.it i.next i.memory) u (.ok m) →
      (∀ b dx dg db, ⟨.update b dx dg, .ok db⟩ ∈ u → Q b db) → Good ⟨σ.k + 1, i.next, m⟩)
    {t : Transcript α} {stages : List (Stage α S)} {r : Except (Failure α) (Solution α)}
    (h : Minimizes strategy memory opt x₀ t stages r)
    (hQ : ∀ b dx dg db, ⟨.update b dx dg, .ok db⟩ ∈ t → Q b db) : ∀ τ ∈ stages, Good τ := by
  refine h.forall_stages (P := fun x => ∀ b dx dg db, x = ⟨.update b dx dg, .ok db⟩ → Q b db)
    start (fun hσ hi hu hall => step hσ hi hu fun b dx dg db hx => ?_) ?_
  · exact hall _ (List.mem_append_right _ hx) b dx dg db rfl
  · rintro x hx b dx dg db rfl
    exact hQ b dx dg db hx

/-- A call of the update rule follows an iteration that is complete. -/
theorem Descends.exists_stage_of_update {left : Nat} {σ : Stage α S} {t : Transcript α}
    {stages : List (Stage α S)} {r : Except (Failure α) (Solution α)}
    (h : Descends strategy opt left σ t stages r) {b : Mat α} {dx dg : Vec α}
    {answer : Except (Failure α) (Mat α)} (hx : ⟨.update b dx dg, answer⟩ ∈ t) :
    ∃ τ ∈ stages, ∃ v i u m, Iterates strategy opt τ v (.ok i) ∧
      Ends (strategy.absorb τ.it i.next i.memory) u m ∧ ⟨.update b dx dg, answer⟩ ∈ u := by
  have notIn : ∀ {v : Transcript α}, v.Evaluates → ⟨.update b dx dg, answer⟩ ∉ v :=
    fun hv hmem => (hv _ hmem).2 b dx dg rfl
  induction h with
  | fails h₁ => exact absurd hx (notIn (evaluates_of_ends_iteration h₁))
  | stops h₁ _ =>
    exact absurd hx (notIn (Transcript.evaluates_append_iff.mpr
      ⟨evaluates_of_ends_iteration h₁, Transcript.evaluates_written _⟩))
  | refuses h₁ _ h₂ =>
    rcases List.mem_append.mp hx with hx | hx
    · exact absurd hx (notIn (evaluates_of_ends_iteration h₁))
    · exact ⟨_, List.mem_singleton_self _, _, _, _, _, h₁, h₂, hx⟩
  | goesOn h₁ _ h₂ _ ih =>
    rcases List.mem_append.mp hx with hx | hx
    · rcases List.mem_append.mp hx with hx | hx
      · exact absurd hx (notIn (evaluates_of_ends_iteration h₁))
      · exact ⟨_, List.mem_cons_self, _, _, _, _, h₁, h₂, hx⟩
    · obtain ⟨τ, hτ, h⟩ := ih hx
      exact ⟨τ, List.mem_cons_of_mem _ hτ, h⟩

theorem Minimizes.exists_stage_of_update {memory : S} {x₀ : Vec α} {t : Transcript α}
    {stages : List (Stage α S)} {r : Except (Failure α) (Solution α)}
    (h : Minimizes strategy memory opt x₀ t stages r) {b : Mat α} {dx dg : Vec α}
    {answer : Except (Failure α) (Mat α)} (hx : ⟨.update b dx dg, answer⟩ ∈ t) :
    ∃ τ ∈ stages, ∃ v i u m, Iterates strategy opt τ v (.ok i) ∧
      Ends (strategy.absorb τ.it i.next i.memory) u m ∧ ⟨.update b dx dg, answer⟩ ∈ u := by
  cases h with
  | unusable _ => cases hx
  | empty _ _ => cases hx
  | unstarted _ _ h₁ => exact absurd rfl ((evaluates_of_ends_iterate h₁ _ hx).2 b dx dg)
  | descends _ _ h₁ h₂ =>
    rcases List.mem_append.mp hx with hx | hx
    · exact absurd rfl ((evaluates_of_ends_iterate h₁ _ hx).2 b dx dg)
    · exact h₂.exists_stage_of_update hx

end Run

end Optimum

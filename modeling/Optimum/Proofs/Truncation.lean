import Mathlib.Order.Defs.Unbundled
import Optimum.Proofs.Loop
import Optimum.Proofs.Scalar.Order

/-!
# Stopping options only truncate

The tolerances and the iteration budget decide when a run stops, and nothing else. So a run with
stricter tolerances and a larger budget makes the same calls, until the other run has stopped.

The two runs part at a note: that of the exit of the shorter one, in the middle of an iteration of
the longer one. `Truncates` relates two dialogues that part like this. It is a relation of trees of
questions: the two ask the same until they part, whatever is answered, so what is proved of it holds
of callbacks with a state too.

## What is proved

* `Run.TruncatesTo.bind`: the rule for sequences.
* `Loop.Tells.truncatesTo`: a loop with stricter options prolongs a loop, by induction on the
  iterations left.
* `Run.truncated_of_outlasts`: what the outcome of a run says of that of a longer one, for all
  methods.
-/

namespace Optimum

open Scalar

variable {α : Type}

/-! ### Stricter options -/

/-- Options under which a run makes the same steps, and does not stop before: the tolerances are at
most those of `opt`, and at least as many iterations are allowed. -/
structure Options.Outlasts [Scalar α] (opt' opt : Options α) : Prop where
  /-- The same difference step. -/
  fdStep : opt'.fdStep = opt.fdStep
  /-- The same tolerance of the line search. -/
  lineTol : opt'.lineTol = opt.lineTol
  /-- The same budget of the line search. -/
  lineMaxFev : opt'.lineMaxFev = opt.lineMaxFev
  /-- At least as many iterations. -/
  maxIt : opt.maxIt ≤ opt'.maxIt
  /-- A tolerance on the gradient that is no larger. -/
  gradTol : opt'.gradTol ≤ opt.gradTol
  /-- A tolerance on the step that is no larger. -/
  deltaXTol : opt'.deltaXTol ≤ opt.deltaXTol
  /-- A tolerance on the change of the objective that is no larger. -/
  deltaFTol : opt'.deltaFTol ≤ opt.deltaFTol

/-- Where no tolerance is met, no smaller one is. -/
theorem Options.Outlasts.toleranceMet_eq_none [Scalar α] [IsTrans α (· ≤ ·)] {opt opt' : Options α}
    (h : opt'.Outlasts opt) {gradNorm stepNorm deltaF : α}
    (hnone : opt.toleranceMet gradNorm stepNorm deltaF = none) :
    opt'.toleranceMet gradNorm stepNorm deltaF = none := by
  have hle : ∀ {a tol tol' : α}, tol' ≤ tol → ¬ a ≤ tol → ¬ a ≤ tol' := fun htol ha ha' =>
    ha (IsTrans.trans _ _ _ ha' htol)
  obtain ⟨hgradient, hstep, hobjective⟩ := Options.toleranceMet_eq_none_iff.mp hnone
  exact Options.toleranceMet_eq_none_iff.mpr
    ⟨hle h.gradTol hgradient, hle h.deltaXTol hstep, hle h.deltaFTol hobjective⟩

/-! ### Dialogues that part -/

namespace Run

variable {β γ : Type}

/-- Two dialogues ask the same, until the first notes that it stops, with a result that all results
of the second agree with. A failure they have in common. -/
inductive Truncates (agree : β → β → Prop) : Dialogue (Answer α) (Except (Failure α) β) →
    Dialogue (Answer α) (Except (Failure α) β) → Prop where
  /-- Both fail. -/
  | fails (e : Failure α) : Truncates agree (.done (.error e)) (.done (.error e))
  /-- The first stops. -/
  | stops {n : Note α} {b : β} {d : Dialogue (Answer α) (Except (Failure α) β)} :
      (∀ t b', d.Ends t (.ok b') → agree b b') →
      Truncates agree (.ask (.note n) fun _ => .done (.ok b)) d
  /-- Both ask the same. -/
  | asks {q : Question α} {next next' : Answer α q → Dialogue (Answer α) (Except (Failure α) β)} :
      (∀ a, Truncates agree (next a) (next' a)) → Truncates agree (.ask q next) (.ask q next')

/-- A run that another one prolongs. -/
def TruncatesTo (agree : β → β → Prop) (run run' : Run α β) : Prop :=
  Truncates agree run.run run'.run

variable {agree : β → β → Prop}

theorem truncatesTo_throw (e : Failure α) :
    TruncatesTo agree (throw e : Run α β) (throw e : Run α β) := .fails e

/-- **Two runs that begin alike part as what follows does.** -/
theorem TruncatesTo.bind {run : Run α γ} {f f' : γ → Run α β}
    (h : ∀ t c, Ends run t (.ok c) → TruncatesTo agree (f c) (f' c)) :
    TruncatesTo agree (run >>= f) (run >>= f') := by
  have parts : ∀ d : Dialogue (Answer α) (Except (Failure α) γ),
      (∀ t c, d.Ends t (.ok c) → TruncatesTo agree (f c) (f' c)) →
      TruncatesTo agree ((ExceptT.mk d : Run α γ) >>= f) ((ExceptT.mk d : Run α γ) >>= f') := by
    intro d
    induction d with
    | done r =>
      intro h
      cases r with
      | error e => exact .fails e
      | ok c => exact h [] c (Dialogue.ends_done_iff.mpr ⟨rfl, rfl⟩)
    | ask q next ih =>
      intro h
      exact .asks fun a => ih a fun t c hc => h (⟨q, a⟩ :: t) c (.ask hc)
  exact parts run.run h

/-! ### Records -/

variable {σ : Type} {d d' : Dialogue (Answer α) (Except (Failure α) β)}

/-- **What is recorded of two dialogues that part**: the same, if the first fails; otherwise the
second goes on where the first has stopped. -/
theorem Truncates.record {answer : (q : Question α) → StateM σ (Answer α q)}
    (h : Truncates agree d d') (s : σ) :
    let out := ((d.record answer).run s).1
    let out' := ((d'.record answer).run s).1
    (∃ e t, out = (.error e, t) ∧ out' = (.error e, t)) ∨
      ∃ b t n u, out = (.ok b, t ++ [⟨.note n, ()⟩]) ∧ out'.2 = t ++ u ∧
        ∀ b', out'.1 = .ok b' → agree b b' := by
  induction h generalizing s with
  | fails e =>
    rw [Dialogue.record_done]
    exact Or.inl ⟨e, [], rfl, rfl⟩
  | @stops n b d hagree =>
    refine Or.inr ⟨b, [], n, ((d.record answer).run s).1.2, ?_, rfl, fun b' hb' => ?_⟩
    · rw [Dialogue.record_ask, Dialogue.record_done]
      rfl
    · have hends : d.Ends ((d.record answer).run s).1.2 ((d.record answer).run s).1.1 :=
        Dialogue.ends_record d s
      rw [hb'] at hends
      exact hagree _ b' hends
  | @asks q next next' _ ih =>
    simp only [Dialogue.record_ask_run]
    rcases ih ((answer q).run s).1 ((answer q).run s).2 with
      ⟨e, t, hout, hout'⟩ | ⟨b, t, n, u, hout, hout', hagree⟩
    · rw [hout, hout']
      exact Or.inl ⟨e, _, rfl, rfl⟩
    · rw [hout, hout']
      exact Or.inr ⟨b, _ :: t, n, u, rfl, rfl, hagree⟩

end Run

/-! ### Loops -/

variable {β : Type}

/-- A result of the same iteration as another one, but for the flag, or of a later one. -/
def Solution.Extends (sol' sol : Solution α) : Prop :=
  sol.iterations ≤ sol'.iterations ∧
    (sol.iterations = sol'.iterations → sol'.x = sol.x ∧ sol'.f = sol.f)

variable [Scalar α] {S ι : Type} {L : Loop α S ι β} {solution : β → Solution α}
  {opt opt' : Options α}

namespace Loop

/-- Whatever follows an iteration, its result extends that of the iteration. -/
theorem Tells.extends_of_ends_after (hL : L.Tells solution) {left k : Nat} {σ : S} {i : ι}
    {t : Transcript α} {b : β} (flag : ExitFlag) (hi : (L.progress i).iteration = k + 1)
    (h : Run.Ends (L.after opt left k σ i) t (.ok b)) :
    (solution b).Extends (solution (L.result i flag)) := by
  rcases ends_after_ok h with ⟨flag', -, rfl⟩ | ⟨l, t₁, t₂, σ', -, -, h₂, -⟩
  · rw [hL.flag i flag flag']
    exact ⟨le_rfl, fun _ => ⟨rfl, rfl⟩⟩
  · obtain ⟨hiterations, hprogress⟩ := hL.iterations_of_ends h₂
    have hpos := List.length_pos_iff.mpr hprogress
    have hresult := hL.result i flag
    exact ⟨by omega, fun heq => by omega⟩

/-- **A loop with stricter options prolongs a loop.** -/
theorem Tells.truncatesTo [IsTrans α (· ≤ ·)] (hL : L.Tells solution) (hopt : opt'.Outlasts opt)
    {left left' k : Nat} (hleft : left ≤ left') (σ : S) :
    Run.TruncatesTo (fun b b' => (solution b').Extends (solution b)) (L.run opt left k σ)
      (L.run opt' left' k σ) := by
  have stops : ∀ {left' k : Nat} {σ : S} {i : ι} (flag : ExitFlag),
      (L.progress i).iteration = k + 1 →
      Run.TruncatesTo (fun b b' => (solution b').Extends (solution b)) (L.finish i flag)
        (L.after opt' left' k σ i) := fun flag hi =>
    .stops fun _ _ h => hL.extends_of_ends_after flag hi h
  induction left generalizing left' k σ with
  | zero =>
    rw [run_eq, run_eq]
    exact .bind fun t i h => stops _ (hL.iteration h).2
  | succ left ih =>
    rw [run_eq, run_eq]
    refine .bind fun t i h => ?_
    cases hmet : L.met? opt σ i with
    | some flag =>
      rw [after_of_met hmet]
      exact stops flag (hL.iteration h).2
    | none =>
      obtain ⟨l, rfl⟩ : ∃ l, left' = l + 1 := ⟨left' - 1, by omega⟩
      have hmet' : L.met? opt' σ i = none := hopt.toleranceMet_eq_none hmet
      rw [after_of_unmet hmet, after_of_unmet hmet']
      exact .bind fun _ σ' _ => ih (by omega) σ'

end Loop

/-! ### The steps do not depend on the stopping options -/

namespace Run

variable (hopt : opt'.Outlasts opt)

include hopt

theorem descentLoop_congr (strategy : Strategy α S) :
    descentLoop strategy opt' = descentLoop strategy opt := by
  have hlineSearch : ∀ x s f₀, lineSearch opt' x s f₀ = lineSearch opt x s f₀ := fun x s f₀ => by
    rw [lineSearch, lineSearch, hopt.lineTol, hopt.lineMaxFev]
  have hiteration : iteration strategy opt' = iteration strategy opt := by
    funext k it memory
    simp only [iteration, stepAlong, hlineSearch, hopt.fdStep]
  rw [descentLoop, hiteration]
  rfl

theorem outerLoop_congr (lagOpt : LagrangianOptions α) :
    outerLoop opt' lagOpt = outerLoop opt lagOpt := by
  have hiteration : outerIteration opt' lagOpt = outerIteration opt lagOpt := by
    funext k it
    simp only [outerIteration, hopt.fdStep]
  rw [outerLoop, hiteration]
  rfl

variable [IsTrans α (· ≤ ·)] (hvalid : opt.validate = .ok ()) (hvalid' : opt'.validate = .ok ())

include hvalid hvalid'

/-- A run of a method, and one with stricter options. -/
theorem truncatesTo_solve (method : Method) (x₀ : Vec α) :
    TruncatesTo (fun sol sol' => Solution.Extends sol' sol) (method.solve opt x₀)
      (method.solve opt' x₀) := by
  have hmaxIt := hopt.maxIt
  rw [Method.solve_eq, Method.solve_eq, minimize_of_valid hvalid, minimize_of_valid hvalid',
    hopt.fdStep]
  by_cases hx₀ : x₀ = []
  · rw [if_pos hx₀, if_pos hx₀]
    exact truncatesTo_throw _
  rw [if_neg hx₀, if_neg hx₀]
  refine .bind fun _ it _ => ?_
  rw [descend_eq_run, descend_eq_run, descentLoop_congr hopt]
  exact (tells_descentLoop method x₀.length opt).truncatesTo hopt (by omega) _

/-- A run of the augmented Lagrangian method, and one with stricter outer options. -/
theorem truncatesTo_augmentedLagrangian (lagOpt : LagrangianOptions α) (x₀ : Vec α) :
    TruncatesTo (fun b b' => Solution.Extends b'.1 b.1) (augmentedLagrangian opt lagOpt x₀)
      (augmentedLagrangian opt' lagOpt x₀) := by
  have hmaxIt := hopt.maxIt
  rw [augmentedLagrangian_of_valid hvalid, augmentedLagrangian_of_valid hvalid']
  refine .bind fun _ _ _ => ?_
  by_cases hx₀ : x₀ = []
  · rw [if_pos hx₀, if_pos hx₀]
    exact truncatesTo_throw _
  rw [if_neg hx₀, if_neg hx₀]
  refine .bind fun _ r _ => .bind fun _ f _ => ?_
  rw [outerDescend_eq_run, outerDescend_eq_run, outerLoop_congr hopt]
  exact (tells_outerLoop opt lagOpt).truncatesTo hopt (by omega) _

end Run

/-! ### The monitor's count -/

namespace Run

variable {t : Transcript α} {x₀ : Vec α}

/-- A method has made the iterations that the monitor was told of. -/
theorem iterations_of_ends_solve {method : Method} {sol : Solution α}
    (h : Ends (method.solve opt x₀) t (.ok sol)) : sol.iterations = t.progress.length := by
  rw [Method.solve_eq] at h
  obtain ⟨stages, h⟩ := ends_minimize_iff.mp h
  cases h with
  | descends _ _ h₁ h₂ =>
    have hloop := ends_descend_iff.mpr ⟨stages, h₂⟩
    rw [descend_eq_run] at hloop
    obtain ⟨hiterations, -⟩ := (tells_descentLoop method x₀.length opt).iterations_of_ends hloop
    rw [Transcript.progress_append, progress_of_ends_iterate h₁]
    exact hiterations.trans (Nat.zero_add _)

/-- So has the augmented Lagrangian method. -/
theorem iterations_of_ends_augmentedLagrangian (hvalid : opt.validate = .ok ())
    {lagOpt : LagrangianOptions α} {b : Solution α × Multipliers α}
    (h : Ends (augmentedLagrangian opt lagOpt x₀) t (.ok b)) :
    b.1.iterations = t.progress.length := by
  rw [augmentedLagrangian_of_valid hvalid] at h
  rcases ends_liftM_bind_iff.mp h with ⟨e, -, -, hr⟩ | ⟨⟨⟩, -, h⟩
  · cases hr
  split at h
  next =>
    obtain ⟨-, hr⟩ := ends_throw_iff.mp h
    cases hr
  next =>
    obtain ⟨t₁, r, t', h₁, h', rfl⟩ := ends_bind_ok_iff.mp h
    obtain ⟨t₂, f, t₃, h₂, h₃, rfl⟩ := ends_bind_ok_iff.mp h'
    obtain ⟨a, rfl, -⟩ := ends_checked_iff.mp h₁
    obtain ⟨v, rfl, -⟩ := ends_finiteObjective_iff.mp h₂
    rw [outerDescend_eq_run] at h₃
    obtain ⟨hiterations, -⟩ := (tells_outerLoop opt lagOpt).iterations_of_ends h₃
    exact hiterations.trans (Nat.zero_add _)

end Run

/-! ### Outcomes -/

/-- The calls of a transcript: all exchanges but the notes for the log. -/
def Transcript.calls (t : Transcript α) : Transcript α :=
  t.filter fun x => match x.question with
    | .note _ => false
    | _ => true

/-- The outcome of a run, with its transcript, is that of a longer run, stopped earlier. -/
structure Truncated (solution : β → Solution α)
    (out out' : Except (Failure α) β × Transcript α) : Prop where
  /-- The calls are the first ones of the longer run. -/
  calls : out.2.calls <+: out'.2.calls
  /-- A run that fails is not stopped earlier. -/
  failure : ∀ e, out.1 = .error e → out' = out
  /-- The monitor was told of each iteration, and is told the same in the longer run. -/
  records : ∀ b, out.1 = .ok b → out.2.progress.length = (solution b).iterations ∧
    out.2.progress <+: out'.2.progress
  /-- The longer run does not stop before. -/
  later : ∀ b b', out.1 = .ok b → out'.1 = .ok b' →
    (solution b).iterations ≤ (solution b').iterations
  /-- If it stops with the same iteration, it does so at the same point. -/
  same : ∀ b b', out.1 = .ok b → out'.1 = .ok b' →
    (solution b).iterations = (solution b').iterations →
      (solution b').x = (solution b).x ∧ (solution b').f = (solution b).f

namespace Run

omit [Scalar α] in
theorem TruncatesTo.truncated {run run' : Run α β}
    (h : TruncatesTo (fun b b' => (solution b').Extends (solution b)) run run')
    (hcount : ∀ t b, Ends run t (.ok b) → (solution b).iterations = t.progress.length) {σ : Type}
    (problem : Callbacks (StateM σ) α) (s : σ) :
    Truncated solution ((run.recordOn problem).run s).1 ((run'.recordOn problem).run s).1 := by
  have hends : Ends run ((run.recordOn problem).run s).1.2 ((run.recordOn problem).run s).1.1 :=
    ends_recordOn run s
  have hrecord : (∃ e t, ((run.recordOn problem).run s).1 = (.error e, t) ∧
      ((run'.recordOn problem).run s).1 = (.error e, t)) ∨
      ∃ b t n u, ((run.recordOn problem).run s).1 = (.ok b, t ++ [⟨.note n, ()⟩]) ∧
        ((run'.recordOn problem).run s).1.2 = t ++ u ∧
        ∀ b', ((run'.recordOn problem).run s).1.1 = .ok b' →
          (solution b').Extends (solution b) := Truncates.record h s
  rcases hrecord with ⟨e, t, hout, hout'⟩ | ⟨b, t, n, u, hout, hout', hextends⟩
  · rw [hout, hout']
    refine ⟨List.prefix_refl _, fun _ _ => rfl, fun b hb => ?_, fun b _ hb => ?_,
      fun b _ hb => ?_⟩ <;> cases hb
  -- The shorter run has made the calls of `t`, and nothing but its last note besides.
  rw [hout] at hends
  have hcalls : Transcript.calls (t ++ [⟨.note n, ()⟩]) = Transcript.calls t :=
    (List.filter_append ..).trans (List.append_nil _)
  have hprogress : Transcript.progress (t ++ [⟨.note n, ()⟩]) = Transcript.progress t :=
    (Transcript.progress_append _ _).trans (List.append_nil _)
  have hextends' : ∀ b₁ b', ((run.recordOn problem).run s).1.1 = .ok b₁ →
      ((run'.recordOn problem).run s).1.1 = .ok b' → (solution b').Extends (solution b₁) := by
    intro b₁ b' hb₁ hb'
    rw [hout] at hb₁
    cases hb₁
    exact hextends b' hb'
  refine ⟨?_, fun e he => ?_, fun b₁ hb₁ => ?_, fun b₁ b' hb₁ hb' => (hextends' b₁ b' hb₁ hb').1,
    fun b₁ b' hb₁ hb' => (hextends' b₁ b' hb₁ hb').2⟩
  · rw [hout, hout', hcalls, Transcript.calls, Transcript.calls, List.filter_append]
    exact List.prefix_append _ _
  · rw [hout] at he
    cases he
  · rw [hout] at hb₁
    cases hb₁
    rw [hout, hout', hcount _ _ hends, hprogress, Transcript.progress_append]
    exact ⟨rfl, List.prefix_append _ _⟩

/-- **Stopping options only truncate a run.** Run with stricter tolerances and a larger budget, each
method makes the calls of the shorter run, with the same answers, and goes on from there. So does
the augmented Lagrangian method, whose stopping options are the outer ones. Of the comparison of
numbers nothing is used but that it is transitive. -/
theorem truncated_of_outlasts [IsTrans α (· ≤ ·)] {σ : Type} (problem : Callbacks (StateM σ) α)
    (hvalid : opt.validate = .ok ()) (hvalid' : opt'.validate = .ok ()) (hopt : opt'.Outlasts opt)
    (lagOpt : LagrangianOptions α) (x₀ : Vec α) (s : σ) :
    (∀ method : Method, Truncated id (((method.solve opt x₀).recordOn problem).run s).1
      (((method.solve opt' x₀).recordOn problem).run s).1) ∧
    Truncated Prod.fst (((augmentedLagrangian opt lagOpt x₀).recordOn problem).run s).1
      (((augmentedLagrangian opt' lagOpt x₀).recordOn problem).run s).1 := by
  constructor
  · intro method
    exact (truncatesTo_solve hopt hvalid hvalid' method x₀).truncated
      (fun _ _ => iterations_of_ends_solve) problem s
  · exact (truncatesTo_augmentedLagrangian hopt hvalid hvalid' lagOpt x₀).truncated
      (fun _ _ => iterations_of_ends_augmentedLagrangian hvalid) problem s

/-- A sum of squares that drops by one whenever the monitor is told of an iteration, on the unit
circle. -/
def droppingSquares : Callbacks (StateM Float) Float where
  objective x := do pure (Vec.dot x x - (← get))
  constraints x := pure ⟨[], [Vec.dot x x - 1]⟩
  gradient x h := pure (.forward x h)
  update b _ _ := pure (.ok b.cleared)
  progress _ := modify (· + 1)
  note _ := pure ()

/-- On it, a quasi-Newton run of one iteration, and one that is allowed three. -/
theorem truncated_of_outlasts_droppingSquares :
    let opt : Options Float := { Options.default with lineMaxFev := 2, maxIt := 1 }
    let opt' : Options Float := { Options.default with lineMaxFev := 2, maxIt := 3, gradTol := 0 }
    let out := (((Method.quasiNewton.solve opt [3]).recordOn droppingSquares).run 0).1
    let out' := (((Method.quasiNewton.solve opt' [3]).recordOn droppingSquares).run 0).1
    opt.validate = .ok () ∧ opt'.validate = .ok () ∧ opt'.Outlasts opt ∧ Truncated id out out' ∧
      out.2.progress.length = 1 ∧ out'.2.progress.length = 3 := by
  intro opt opt' out out'
  have hvalid : opt.validate = .ok () := Options.validate_eq_ok_iff.mpr (by decide)
  have hvalid' : opt'.validate = .ok () := Options.validate_eq_ok_iff.mpr (by decide)
  have hopt : opt'.Outlasts opt :=
    ⟨rfl, rfl, rfl, by decide, by decide +kernel, by decide +kernel, by decide +kernel⟩
  obtain ⟨hmethod, -⟩ := truncated_of_outlasts droppingSquares hvalid hvalid' hopt .default [3] 0
  exact ⟨hvalid, hvalid', hopt, hmethod .quasiNewton, by decide +kernel, by decide +kernel⟩

end Run

end Optimum

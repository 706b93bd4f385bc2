import Optimum.Proofs.Descent.Methods
import Optimum.Proofs.Lagrangian.Paths

/-!
# Loops with exit tests

The loop of the descent methods and the outer loop of the augmented Lagrangian method have one
shape: an iteration, the exit tests, and, if none is met, what is carried to the next iteration.
`Loop` is that shape, and both are loops of it (`Run.descend_eq_run`, `Run.outerDescend_eq_run`).
What is proved of every loop holds of both.

## What is proved

* `Loop.Runs` says what a run of a loop did, case by case; every run is of one of these forms
  (`Loop.runs_of_ends`).
* `Loop.Tells.iterations_of_ends`: a loop whose iterations each tell the monitor once has made as
  many iterations as the monitor was told of.
* `Run.tells_descentLoop` and `Run.tells_outerLoop`: these two are such loops.
* `Loop.Related.run`: loops are related as their parts are, by any relation between runs that is
  kept by putting runs in sequence.
-/

namespace Optimum

open Scalar

/-- A loop of iterations `ι`, which carries `S` from each to the next, and ends with a result. -/
structure Loop (α S ι β : Type) where
  /-- An iteration, by its number from zero. -/
  iteration : Nat → S → Run α ι
  /-- What the monitor was told of an iteration. -/
  progress : ι → Progress α
  /-- The change of the objective by an iteration. -/
  change : S → ι → α
  /-- What is carried to the next iteration. -/
  carry : S → ι → Run α S
  /-- What is noted at the end. -/
  farewell : ι → ExitFlag → Note α
  /-- The result, after the last iteration. -/
  result : ι → ExitFlag → β

variable {α S ι β : Type}

namespace Loop

/-- The end of a loop. -/
def finish (L : Loop α S ι β) (i : ι) (flag : ExitFlag) : Run α β := do
  Run.note (L.farewell i flag)
  pure (L.result i flag)

variable [Scalar α]

/-- The exit tests after an iteration. -/
def met? (L : Loop α S ι β) (opt : Options α) (σ : S) (i : ι) : Option ExitFlag :=
  opt.toleranceMet (L.progress i).gradNorm (L.progress i).stepSize (L.change σ i)

/-- The iterations from number `k` on, with at most `left` more after the first. -/
def run (L : Loop α S ι β) (opt : Options α) : (left k : Nat) → S → Run α β
  | left, k, σ => do
    let i ← L.iteration k σ
    match left with
    | 0 => L.finish i .maxIterations
    | left + 1 =>
      match L.met? opt σ i with
      | some flag => L.finish i flag
      | none => do
        let σ' ← L.carry σ i
        L.run opt left (k + 1) σ'

/-- What follows iteration number `k`. -/
def after (L : Loop α S ι β) (opt : Options α) (left k : Nat) (σ : S) (i : ι) : Run α β :=
  match left with
  | 0 => L.finish i .maxIterations
  | left + 1 =>
    match L.met? opt σ i with
    | some flag => L.finish i flag
    | none => do
      let σ' ← L.carry σ i
      L.run opt left (k + 1) σ'

variable {L : Loop α S ι β} {opt : Options α} {left k : Nat} {σ : S} {i : ι} {t : Transcript α}

theorem run_eq : L.run opt left k σ = L.iteration k σ >>= L.after opt left k σ := by
  cases left <;> rfl

theorem after_of_met {flag : ExitFlag} (h : L.met? opt σ i = some flag) :
    L.after opt (left + 1) k σ i = L.finish i flag := by
  rw [after, h]

theorem after_of_unmet (h : L.met? opt σ i = none) :
    L.after opt (left + 1) k σ i = L.carry σ i >>= L.run opt left (k + 1) := by
  rw [after, h]

omit [Scalar α] in
theorem ends_finish_iff {flag : ExitFlag} {r : Except (Failure α) β} :
    Run.Ends (L.finish i flag) t r ↔
      t = Note.written [L.farewell i flag] ∧ r = .ok (L.result i flag) := by
  rw [finish, Run.ends_note_bind_iff]
  constructor
  · intro h
    obtain ⟨t', rfl, h⟩ := h
    obtain ⟨rfl, rfl⟩ := Run.ends_pure_iff.mp h
    exact ⟨rfl, rfl⟩
  · intro h
    obtain ⟨rfl, rfl⟩ := h
    exact ⟨[], rfl, Run.ends_pure_iff.mpr ⟨rfl, rfl⟩⟩

/-- A result after an iteration is that of the iteration, or one of a later iteration. -/
theorem ends_after_ok {b : β} (h : Run.Ends (L.after opt left k σ i) t (.ok b)) :
    (∃ flag, t = Note.written [L.farewell i flag] ∧ b = L.result i flag) ∨
      ∃ l t₁ t₂ σ', left = l + 1 ∧ Run.Ends (L.carry σ i) t₁ (.ok σ') ∧
        Run.Ends (L.run opt l (k + 1) σ') t₂ (.ok b) ∧ t = t₁ ++ t₂ := by
  have finished : ∀ flag, Run.Ends (L.finish i flag) t (.ok b) →
      ∃ flag, t = Note.written [L.farewell i flag] ∧ b = L.result i flag := by
    intro flag h
    obtain ⟨rfl, hb⟩ := ends_finish_iff.mp h
    exact ⟨flag, rfl, Except.ok.inj hb⟩
  cases left with
  | zero => exact Or.inl (finished _ h)
  | succ l =>
    cases hmet : L.met? opt σ i with
    | some flag =>
      rw [after_of_met hmet] at h
      exact Or.inl (finished flag h)
    | none =>
      rw [after_of_unmet hmet] at h
      obtain ⟨t₁, σ', t₂, h₁, h₂, rfl⟩ := Run.ends_bind_ok_iff.mp h
      exact Or.inr ⟨l, t₁, t₂, σ', rfl, h₁, h₂, rfl⟩

/-- The exit after an iteration, if there is one: the budget is spent, or an exit test is met. -/
def exitAfter (L : Loop α S ι β) (opt : Options α) (left : Nat) (σ : S) (i : ι) : Option ExitFlag :=
  match left with
  | 0 => some .maxIterations
  | _ + 1 => L.met? opt σ i

/-- What a run of a loop did, and how it ended. -/
inductive Runs (L : Loop α S ι β) (opt : Options α) :
    Nat → Nat → S → Transcript α → Except (Failure α) β → Prop where
  /-- The iteration fails. -/
  | fails {left k : Nat} {σ : S} {t : Transcript α} {e : Failure α} :
      Run.Ends (L.iteration k σ) t (.error e) → Runs L opt left k σ t (.error e)
  /-- The iteration is the last one. -/
  | stops {left k : Nat} {σ : S} {t : Transcript α} {i : ι} {flag : ExitFlag} :
      Run.Ends (L.iteration k σ) t (.ok i) → L.exitAfter opt left σ i = some flag →
      Runs L opt left k σ (t ++ Note.written [L.farewell i flag]) (.ok (L.result i flag))
  /-- Nothing can be carried to the next iteration. -/
  | breaks {left k : Nat} {σ : S} {t u : Transcript α} {i : ι} {e : Failure α} :
      Run.Ends (L.iteration k σ) t (.ok i) → L.met? opt σ i = none →
      Run.Ends (L.carry σ i) u (.error e) → Runs L opt (left + 1) k σ (t ++ u) (.error e)
  /-- The iteration is followed by the next one. -/
  | goesOn {left k : Nat} {σ σ' : S} {t u v : Transcript α} {i : ι} {r : Except (Failure α) β} :
      Run.Ends (L.iteration k σ) t (.ok i) → L.met? opt σ i = none →
      Run.Ends (L.carry σ i) u (.ok σ') → Runs L opt left (k + 1) σ' v r →
      Runs L opt (left + 1) k σ (t ++ (u ++ v)) r

theorem runs_of_ends {r : Except (Failure α) β} (h : Run.Ends (L.run opt left k σ) t r) :
    L.Runs opt left k σ t r := by
  induction left generalizing k σ t with
  | zero =>
    rw [run_eq] at h
    rcases Run.ends_bind_iff.mp h with ⟨e, h₁, rfl⟩ | ⟨t₁, i, t₂, h₁, h₂, rfl⟩
    · exact .fails h₁
    · obtain ⟨rfl, rfl⟩ := ends_finish_iff.mp h₂
      exact .stops h₁ rfl
  | succ left ih =>
    rw [run_eq] at h
    rcases Run.ends_bind_iff.mp h with ⟨e, h₁, rfl⟩ | ⟨t₁, i, t₂, h₁, h₂, rfl⟩
    · exact .fails h₁
    cases hmet : L.met? opt σ i with
    | some flag =>
      rw [after_of_met hmet] at h₂
      obtain ⟨rfl, rfl⟩ := ends_finish_iff.mp h₂
      exact .stops h₁ hmet
    | none =>
      rw [after_of_unmet hmet] at h₂
      rcases Run.ends_bind_iff.mp h₂ with ⟨e, h₃, rfl⟩ | ⟨t₃, σ', t₄, h₃, h₄, rfl⟩
      · exact .breaks h₁ hmet h₃
      · exact .goesOn h₁ hmet h₃ (ih h₄)

/-- Every iteration tells the monitor once, with its number, and the result has the number of the
last one, whichever exit test was met. -/
structure Tells (L : Loop α S ι β) (solution : β → Solution α) : Prop where
  /-- An iteration tells the monitor. -/
  iteration : ∀ {k σ t i}, Run.Ends (L.iteration k σ) t (.ok i) →
    t.progress = [L.progress i] ∧ (L.progress i).iteration = k + 1
  /-- Nothing else does. -/
  carry : ∀ {σ i t σ'}, Run.Ends (L.carry σ i) t (.ok σ') → t.progress = []
  /-- The result has the number. -/
  result : ∀ i flag, (solution (L.result i flag)).iterations = (L.progress i).iteration
  /-- Of the exit test it has the flag only. -/
  flag : ∀ i flag flag', solution (L.result i flag') =
    { solution (L.result i flag) with exitFlag := flag' }

/-- **A loop has made the iterations that the monitor was told of**, at least one. -/
theorem Tells.iterations_of_ends {solution : β → Solution α} (hL : L.Tells solution) {b : β}
    (h : Run.Ends (L.run opt left k σ) t (.ok b)) :
    (solution b).iterations = k + t.progress.length ∧ t.progress ≠ [] := by
  replace h := runs_of_ends h
  generalize hr : Except.ok b = r at h
  induction h with
  | fails _ => cases hr
  | breaks _ _ _ => cases hr
  | stops h₁ _ =>
    cases hr
    obtain ⟨hprogress, hnumber⟩ := hL.iteration h₁
    simp [hL.result, hnumber, hprogress]
  | goesOn h₁ _ h₃ _ ih =>
    obtain ⟨hiterations, -⟩ := ih hr
    rw [Transcript.progress_append, Transcript.progress_append, (hL.iteration h₁).1, hL.carry h₃,
      List.nil_append, List.singleton_append, List.length_cons]
    exact ⟨by omega, List.cons_ne_nil _ _⟩

end Loop

/-! ### Two loops -/

/-- A relation between runs that is kept by putting runs in sequence. Results correspond by a
relation of their own. -/
structure Run.Relation (α : Type) where
  /-- Two runs are related, and so are their results by `R`. -/
  Holds : {β γ : Type} → (R : β → γ → Prop) → Run α β → Run α γ → Prop
  /-- Two runs in sequence. -/
  bind : ∀ {β γ δ ε : Type} {R : β → γ → Prop} {S : δ → ε → Prop} {run : Run α β} {run' : Run α γ}
    {f : β → Run α δ} {f' : γ → Run α ε}, Holds R run run' →
    (∀ b c, R b c → Holds S (f b) (f' c)) → Holds S (run >>= f) (run' >>= f')

namespace Loop

variable [Scalar α] {S' ι' γ : Type} {ρ : Run.Relation α} {L : Loop α S ι β} {L' : Loop α S' ι' γ}
  {carried : S → S' → Prop} {did : S → S' → ι → ι' → Prop} {R : β → γ → Prop}

/-- The parts of two loops are related. What they carry corresponds by `carried`, and what two
iterations from there did by `did`. -/
structure Related (ρ : Run.Relation α) (L : Loop α S ι β) (L' : Loop α S' ι' γ)
    (carried : S → S' → Prop) (did : S → S' → ι → ι' → Prop) (R : β → γ → Prop) : Prop where
  /-- The iterations. -/
  iteration : ∀ k σ σ', carried σ σ' → ρ.Holds (did σ σ') (L.iteration k σ) (L'.iteration k σ')
  /-- The exit tests. -/
  met? : ∀ opt σ σ' i i', carried σ σ' → did σ σ' i i' → L.met? opt σ i = L'.met? opt σ' i'
  /-- What is carried on. -/
  carry : ∀ σ σ' i i', carried σ σ' → did σ σ' i i' →
    ρ.Holds carried (L.carry σ i) (L'.carry σ' i')
  /-- The end. -/
  finish : ∀ σ σ' i i' flag, did σ σ' i i' → ρ.Holds R (L.finish i flag) (L'.finish i' flag)

/-- **Loops are related as their parts are**, by induction on the iterations that are left. -/
theorem Related.run (h : L.Related ρ L' carried did R) (opt : Options α) (left k : Nat) {σ : S}
    {σ' : S'} (hσ : carried σ σ') : ρ.Holds R (L.run opt left k σ) (L'.run opt left k σ') := by
  induction left generalizing k σ σ' with
  | zero =>
    rw [run_eq, run_eq]
    exact ρ.bind (h.iteration k σ σ' hσ) fun i i' hi => h.finish σ σ' i i' _ hi
  | succ left ih =>
    rw [run_eq, run_eq]
    refine ρ.bind (h.iteration k σ σ' hσ) fun i i' hi => ?_
    have hmet := h.met? opt σ σ' i i' hσ hi
    cases hflag : L.met? opt σ i with
    | some flag =>
      rw [after_of_met hflag, after_of_met (hmet ▸ hflag)]
      exact h.finish σ σ' i i' flag hi
    | none =>
      rw [after_of_unmet hflag, after_of_unmet (hmet ▸ hflag)]
      exact ρ.bind (h.carry σ σ' i i' hσ hi) fun σ σ' hσ => ih (k + 1) hσ

end Loop

/-! ### Descents -/

variable [Scalar α]

namespace Run

/-- The loop of a descent. It carries the iterate and what the method remembers. -/
def descentLoop (strategy : Strategy α S) (opt : Options α) :
    Loop α (Iterate α × S) (Iteration α S) (Solution α) where
  iteration k σ := iteration strategy opt k σ.1 σ.2
  progress i := i.progress
  change σ i := magnitude (i.next.f - σ.1.f)
  carry σ i := do
    let memory ← strategy.absorb σ.1 i.next i.memory
    pure (i.next, memory)
  farewell i flag := .exit flag i.progress.iteration
  result i flag := ⟨i.next.x, i.next.f, flag, i.progress.iteration⟩

theorem descend_eq_run (strategy : Strategy α S) (opt : Options α) (left k : Nat) (it : Iterate α)
    (memory : S) : descend strategy opt left k it memory =
      (descentLoop strategy opt).run opt left k (it, memory) := by
  induction left generalizing k it memory with
  | zero => rfl
  | succ left ih =>
    rw [descend, Loop.run_eq]
    refine bind_congr fun i => ?_
    cases hmet : (descentLoop strategy opt).met? opt (it, memory) i with
    | some flag =>
      have hflag : opt.toleranceMet i.progress.gradNorm i.progress.stepSize
          (magnitude (i.next.f - it.f)) = some flag := hmet
      simp only [Loop.after_of_met hmet, hflag]
      rfl
    | none =>
      have hnone : opt.toleranceMet i.progress.gradNorm i.progress.stepSize
          (magnitude (i.next.f - it.f)) = none := hmet
      simp only [Loop.after_of_unmet hmet, hnone, ih]
      change _ = (strategy.absorb it i.next i.memory >>= fun m => pure (i.next, m)) >>= _
      rw [bind_assoc]
      exact bind_congr fun memory => (pure_bind _ _).symm

theorem tells_descentLoop (method : Method) (n : Nat) (opt : Options α) :
    (descentLoop (method.strategy n) opt).Tells id where
  iteration h := ⟨(views_of_ends_iteration h).2, iteration_of_iterates (σ := ⟨_, _, _⟩) h⟩
  carry h := by
    obtain ⟨t₁, memory, t₂, h₁, h₂, rfl⟩ := ends_bind_ok_iff.mp h
    obtain ⟨rfl, -⟩ := ends_pure_iff.mp h₂
    rw [List.append_nil]
    exact (Method.aside_absorb h₁).progress
  result _ _ := rfl
  flag _ _ _ := rfl

/-! ### Outer iterations -/

/-- The outer loop of the augmented Lagrangian method. It carries the outer iterate. -/
def outerLoop (opt : Options α) (lagOpt : LagrangianOptions α) :
    Loop α (OuterIterate α) (OuterIteration α) (Solution α × Multipliers α) where
  iteration := outerIteration opt lagOpt
  progress i := i.progress
  change it i := magnitude (i.next.f - it.f)
  carry _ i := pure i.next
  farewell i flag := .outerExit flag i.progress.iteration
  result i flag := (⟨i.next.x, i.next.f, flag, i.progress.iteration⟩, i.next.multipliers)

theorem outerDescend_eq_run (opt : Options α) (lagOpt : LagrangianOptions α) (left k : Nat)
    (it : OuterIterate α) :
    outerDescend opt lagOpt left k it = (outerLoop opt lagOpt).run opt left k it := by
  induction left generalizing k it with
  | zero => rfl
  | succ left ih =>
    rw [outerDescend, Loop.run_eq]
    refine bind_congr fun i => ?_
    cases hmet : (outerLoop opt lagOpt).met? opt it i with
    | some flag =>
      have hflag : opt.toleranceMet i.progress.gradNorm i.progress.stepSize
          (magnitude (i.next.f - it.f)) = some flag := hmet
      simp only [Loop.after_of_met hmet, hflag]
      rfl
    | none =>
      have hnone : opt.toleranceMet i.progress.gradNorm i.progress.stepSize
          (magnitude (i.next.f - it.f)) = none := hmet
      simp only [Loop.after_of_unmet hmet, hnone, ih]
      exact (pure_bind _ _).symm

theorem tells_outerLoop (opt : Options α) (lagOpt : LagrangianOptions α) :
    (outerLoop opt lagOpt).Tells Prod.fst where
  iteration h := progress_of_ends_outerIteration h
  carry h := by
    obtain ⟨rfl, -⟩ := ends_pure_iff.mp h
    rfl
  result _ _ := rfl
  flag _ _ _ := rfl

end Run

end Optimum

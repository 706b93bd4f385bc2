import Optimum.Proofs.Descent.Methods

/-!
# Counters of limited size

The loops of a descent recurse on what is left of a budget. Here they are once more as loops that
count up: a search counts its evaluations and holds the count against its budget before it makes
another, a descent counts its iterations and holds the count against `maxIt` after each. A counter
holds numbers up to `top` and none below zero; a loop in which one would have to hold another number
has no outcome.

Each loop recurses as its counter approaches the bound that it is held against, so that it is a
function says that it ends.

## What is proved

* `Method.solveCounted_eq`: with budgets that a counter can hold, the counted loops are the run of
  the method, answer by answer. So no counter leaves its range, whatever the callbacks answer.
-/

namespace Optimum

open Scalar

/-! ### Counters -/

namespace Counter

/-- The number after `n`, if a counter of numbers up to `top` can hold it. -/
def succ? (top n : Nat) : Option Nat := if n < top then some (n + 1) else none

/-- The number before `n`, if there is one. -/
def pred? : Nat → Option Nat
  | 0 => none
  | n + 1 => some n

theorem succ?_of_lt {top n : Nat} (h : n < top) : succ? top n = some (n + 1) := if_pos h

theorem eq_of_succ?_eq_some {top n m : Nat} (h : succ? top n = some m) : m = n + 1 := by
  unfold succ? at h
  split at h
  · exact (Option.some_inj.mp h).symm
  · cases h

theorem pred?_of_pos {n : Nat} (h : 0 < n) : pred? n = some (n - 1) := by
  cases n with
  | zero => exact absurd h (Nat.lt_irrefl 0)
  | succ n => rfl

end Counter

variable {α : Type} [Scalar α]

/-! ### Searches -/

namespace Search

/-- The search from a bracket that `fev` evaluations have led to, with at most `maxFev` in all. -/
def refineCounted (top : Nat) (tol : α) (maxFev fev : Nat) (b : Bracket α) :
    OptionT (Search α) (Found α) :=
  if b.IsResolved tol then pure ⟨b.best, fev, false⟩
  else if maxFev ≤ fev then pure ⟨b.best, fev, true⟩
  else do
    let f ← value (b.proposal tol)
    match _h : Counter.succ? top fev with
    | none => failure
    | some fev => refineCounted top tol maxFev fev (b.advance tol f)
termination_by maxFev - fev
decreasing_by
  have := Counter.eq_of_succ?_eq_some _h
  omega

/-- Brent's search, counting its evaluations. -/
def brentCounted (top : Nat) (lo hi tol : α) (maxFev : Nat) : OptionT (Search α) (Found α) := do
  let x := Bracket.start lo hi
  let f ← value x
  refineCounted top tol maxFev 1 (.init lo hi ⟨x, f⟩)

theorem refineCounted_eq {top maxFev : Nat} (htop : maxFev ≤ top) (tol : α) (fev : Nat)
    (b : Bracket α) :
    refineCounted top tol maxFev fev b = liftM (refine tol (maxFev - fev) fev b) := by
  generalize hleft : maxFev - fev = left
  induction left generalizing fev b with
  | zero =>
    rw [refineCounted, refine, if_pos (Nat.sub_eq_zero_iff_le.mp hleft)]
    split
    next h =>
      rw [decide_eq_false (not_not.mpr h)]
      exact (liftM_pure _).symm
    next h =>
      rw [decide_eq_true h]
      exact (liftM_pure _).symm
  | succ left ih =>
    rw [refineCounted, refine, if_neg (by omega : ¬ maxFev ≤ fev)]
    split
    · exact (liftM_pure _).symm
    · rw [liftM_bind]
      refine congrArg (_ >>= ·) (funext fun f => ?_)
      have hsucc : Counter.succ? top fev = some (fev + 1) := Counter.succ?_of_lt (by omega)
      split
      next h => cases hsucc.symm.trans h
      next count h =>
        cases hsucc.symm.trans h
        exact ih _ _ (by omega)

theorem brentCounted_eq {top maxFev : Nat} (htop : maxFev ≤ top) (lo hi tol : α) :
    brentCounted top lo hi tol maxFev = liftM (boundedBrent lo hi tol maxFev) := by
  rw [brentCounted, boundedBrent, liftM_bind]
  exact congrArg (_ >>= ·) (funext fun f => refineCounted_eq htop tol 1 _)

end Search

namespace Run

/-! ### Descents -/

/-- A line search that counts its evaluations. One is kept back for the full step. -/
def lineSearchCounted (top : Nat) (opt : Options α) (x s : Vec α) (f₀ : α) :
    OptionT (Run α) (Step α) := do
  let maxFev ← OptionT.mk (pure (Counter.pred? opt.lineMaxFev))
  let found ← OptionT.mk ((Search.brentCounted top 0 1 opt.lineTol maxFev).run.run (alongLine x s))
  (found.notes.forM note : Run α Unit)
  let f₁ ← alongLine x s 1
  let step := Step.choose found.best f₀ f₁
  unless step.bracketed do note (.notBracketed step.alpha)
  pure step

/-- The iterations of a descent after the first `iterations`, counting them. -/
def descendCounted {S : Type} (top : Nat) (strategy : Strategy α S) (opt : Options α)
    (iterations : Nat) (it : Iterate α) (memory : S) : OptionT (Run α) (Solution α) := do
  let (direction, memory) := strategy.direction iterations it memory
  let step ← lineSearchCounted top opt it.x direction.normalize it.f
  let next ← iterate (it.x.along direction.normalize step.alpha) opt.fdStep
  match _h : Counter.succ? top iterations with
  | none => failure
  | some count => do
    let p : Progress α :=
      ⟨count, next.f, Vec.norm next.g, Vec.distance next.x it.x, step.alpha⟩
    note (.iteration p)
    progress p
    match _hflag : opt.exitFlag count p.gradNorm p.stepSize (magnitude (next.f - it.f)) with
    | some flag => finish ⟨direction, step, next, memory, p⟩ flag
    | none => do
      let memory ← strategy.absorb it next memory
      descendCounted top strategy opt count next memory
termination_by opt.maxIt - iterations
decreasing_by
  have := Counter.eq_of_succ?_eq_some _h
  have : ¬ opt.maxIt ≤ count := fun hle => by
    cases (Options.exitFlag_of_le hle _ _ _).symm.trans _hflag
  omega

/-- A run of a method that counts its iterations and evaluations. -/
def minimizeCounted {S : Type} (top : Nat) (strategy : Strategy α S) (memory : S)
    (opt : Options α) (x₀ : Vec α) : OptionT (Run α) (Solution α) := do
  (opt.validate : Run α Unit)
  if x₀.isEmpty then (throw .emptyDesignVector : Run α Unit)
  let it ← iterate x₀ opt.fdStep
  descendCounted top strategy opt 0 it memory

/-! ### The counters stay in their range -/

variable {top : Nat} {opt : Options α}

/-- A search along a line ends as it does without counting. -/
theorem run_liftM_search {β : Type} (d : Search α β) (x s : Vec α) :
    OptionT.mk ((liftM d : OptionT (Search α) β).run.run (alongLine x s)) =
      liftM (d.run (alongLine x s)) := by
  refine OptionT.ext ?_
  have hrun : (liftM d : OptionT (Search α) β).run = d >>= fun b => pure (some b) := rfl
  rw [hrun]
  exact Dialogue.run_bind _ _ _

theorem lineSearchCounted_eq (hopt : opt.Usable) (htop : opt.lineMaxFev ≤ top) (x s : Vec α)
    (f₀ : α) : lineSearchCounted top opt x s f₀ = liftM (lineSearch opt x s f₀) := by
  have hfev := hopt.lineMaxFev
  rw [lineSearchCounted, lineSearch, Counter.pred?_of_pos (by omega)]
  have hpure : ∀ n : Nat, (OptionT.mk (pure (some n)) : OptionT (Run α) Nat) = pure n := fun _ => rfl
  rw [hpure, pure_bind, Search.brentCounted_eq (by omega), run_liftM_search]
  simp only [liftM_bind, liftM_pure, apply_ite liftM]

variable {S : Type} {strategy : Strategy α S}

/-- An iteration that the budget allows can be counted. -/
theorem descendCounted_eq_bind (hopt : opt.Usable) (hit : opt.maxIt ≤ top)
    (hfev : opt.lineMaxFev ≤ top) {k : Nat} (hk : k < opt.maxIt) (it : Iterate α) (memory : S) :
    descendCounted top strategy opt k it memory =
      (liftM (iteration strategy opt k it memory) : OptionT (Run α) _) >>= fun i =>
        match opt.exitFlag (k + 1) i.progress.gradNorm i.progress.stepSize
            (magnitude (i.next.f - it.f)) with
        | some flag => liftM (finish i flag)
        | none => liftM (strategy.absorb it i.next i.memory) >>= fun m =>
          descendCounted top strategy opt (k + 1) i.next m := by
  have hsucc := Counter.succ?_of_lt (Nat.lt_of_lt_of_le hk hit)
  rw [descendCounted]
  simp only [iteration, stepAlong, lineSearchCounted_eq hopt hfev, liftM_bind, liftM_pure,
    bind_assoc, pure_bind]
  refine congrArg (_ >>= ·) (funext fun step => ?_)
  refine congrArg (_ >>= ·) (funext fun next => ?_)
  split
  next h => cases hsucc.symm.trans h
  next count h =>
    cases hsucc.symm.trans h
    refine congrArg (_ >>= ·) (funext fun _ => ?_)
    refine congrArg (_ >>= ·) (funext fun _ => ?_)
    split
    next flag h => simp only [h]
    next h => simp only [h]

/-- The loop that counts up is the loop that counts down. -/
theorem descendCounted_eq (hopt : opt.Usable) (hit : opt.maxIt ≤ top)
    (hfev : opt.lineMaxFev ≤ top) {left k : Nat} (hleft : k + left + 1 = opt.maxIt)
    (it : Iterate α) (memory : S) :
    descendCounted top strategy opt k it memory = liftM (descend strategy opt left k it memory) := by
  rw [descend, liftM_bind]
  induction left generalizing k it memory with
  | zero =>
    rw [descendCounted_eq_bind hopt hit hfev (by omega)]
    refine congrArg (_ >>= ·) (funext fun i => ?_)
    simp only [Options.exitFlag_of_le (show opt.maxIt ≤ k + 1 by omega)]
  | succ left ih =>
    rw [descendCounted_eq_bind hopt hit hfev (by omega)]
    refine congrArg (_ >>= ·) (funext fun i => ?_)
    simp only [Options.exitFlag_of_lt (show k + 1 < opt.maxIt by omega)]
    cases opt.toleranceMet i.progress.gradNorm i.progress.stepSize
      (magnitude (i.next.f - it.f)) with
    | some flag => rfl
    | none =>
      simp only [liftM_bind]
      refine congrArg (_ >>= ·) (funext fun m => ?_)
      rw [ih (by omega), descend, liftM_bind]

theorem minimizeCounted_eq (hit : opt.maxIt ≤ top) (hfev : opt.lineMaxFev ≤ top) (memory : S)
    (x₀ : Vec α) :
    minimizeCounted top strategy memory opt x₀ = liftM (minimize strategy memory opt x₀) := by
  rw [minimizeCounted, minimize, liftM_bind, Options.validate]
  cases hfault : opt.fault? with
  | some fault => rfl
  | none =>
    have hopt := Options.fault?_eq_none_iff.mp hfault
    have hmaxIt := hopt.maxIt
    refine congrArg (_ >>= ·) (funext fun _ => ?_)
    cases x₀ with
    | nil => rfl
    | cons a x =>
      simp only [List.isEmpty_cons, Bool.false_eq_true, if_false, liftM_bind]
      refine congrArg (_ >>= ·) (funext fun it => ?_)
      exact descendCounted_eq hopt hit hfev (by omega) it memory

end Run

namespace Method

/-! ### The three methods -/

/-- The run of a method, counting its iterations and evaluations. -/
def solveCounted (method : Method) (top : Nat) (opt : Options α) (x₀ : Vec α) :
    OptionT (Run α) (Solution α) :=
  Run.minimizeCounted top (method.strategy x₀.length) (method.initial x₀.length) opt x₀

/-- **No counter leaves its range**, if it can hold the budgets that it is held against. -/
theorem solveCounted_eq {top : Nat} {opt : Options α} (hit : opt.maxIt ≤ top)
    (hfev : opt.lineMaxFev ≤ top) (method : Method) (x₀ : Vec α) :
    method.solveCounted top opt x₀ = liftM (method.solve opt x₀) := by
  rw [solveCounted, solve_eq, Run.minimizeCounted_eq hit hfev]

end Method

end Optimum

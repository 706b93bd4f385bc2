import Optimum.Proofs.Matrix.Exact
import Optimum.Proofs.Omission

/-!
# Strategies that degenerate to steepest descent

In one dimension conjugate directions restart at every iteration, so their memory is never used. And
a quasi-Newton method whose updates all come to nothing keeps the identity for its approximation. Both
follow the negative gradient, and a run of theirs is one of steepest descent: in the first case with
the very same calls, whatever the arithmetic, in the second apart from the calls of the update rule.

## What is proved

* `Strategy.FollowsGradient` says that a strategy does no more than to follow the negative gradient,
  and `Strategy.FollowsGradient.reducesTo` that its runs are then those of steepest descent.
* `Run.degenerate_of_recordOn`: both cases, for whole runs on problems.
-/

namespace Optimum

open Scalar

variable {α S : Type}

/-! ### Questions about updates -/

/-- A call of the update rule, or a note about an update that was skipped. -/
def Question.isUpdate : Question α → Bool
  | .update _ _ _ => true
  | .note (.updateSkipped _) => true
  | _ => false

theorem Question.Evaluating.isUpdate_eq_false {q : Question α} (h : q.Evaluating) :
    q.isUpdate = false := by
  cases q with
  | update b dx dg => exact absurd h id
  | note n => cases n <;> trivial
  | _ => rfl

/-! ### Strategies -/

variable [Scalar α]

/-- A strategy follows the negative gradient in dimension `n`, as long as its memory is as `Keeps`
says, and keeps its memory like that. It does nothing else, with the questions of `O` left out. -/
structure Strategy.FollowsGradient (O : Omission (Answer α)) (n : Nat) (strategy : Strategy α S)
    (Keeps : S → Prop) : Prop where
  /-- The direction. -/
  direction : ∀ k it m, Keeps m → it.g.length = n → (strategy.direction k it m).1 = it.g.neg
  /-- The memory after choosing it. -/
  memory : ∀ k it m, Keeps m → Keeps (strategy.direction k it m).2
  /-- The memory after a step. -/
  absorb : ∀ prev next m, Keeps m →
    (strategy.absorb prev next m).ReducesTo O (fun m _ => Keeps m) (pure () : Run α Unit)

namespace Strategy.FollowsGradient

open Run

variable {O : Omission (Answer α)} {n : Nat} {strategy : Strategy α S} {Keeps : S → Prop}
  {opt : Options α}

/-- What evaluates asks nothing to be left out. -/
theorem reducesTo_of_evaluating {β : Type} {run : Run α β}
    (hO : ∀ q : Question α, q.isUpdate = false → O.omits q = false)
    (hrun : AsksOnly Question.Evaluating run) :
    run.ReducesTo O (fun b c => c = b ∧ ∃ t, Ends run t (.ok b)) run :=
  .self (hrun.mono fun _ hq => hO _ hq.isUpdate_eq_false)

/-- An iteration goes along the negative gradient, as one of steepest descent does. -/
theorem reducesTo_iteration (h : strategy.FollowsGradient O n Keeps)
    (hO : ∀ q : Question α, q.isUpdate = false → O.omits q = false) (k : Nat) {it : Iterate α}
    {m : S} (hm : Keeps m) (hx : it.x.length = n) (hg : it.g.length = n) :
    (iteration strategy opt k it m).ReducesTo O
      (fun i i' => i.next = i'.next ∧ i.progress = i'.progress ∧ Keeps i.memory ∧
        i.next.x.length = n ∧ i.next.g.length = n)
      (iteration .steepest opt k it ()) := by
  have hunit : it.g.neg.normalize.length = n := by simp [hg]
  simp only [iteration, h.direction k it m hm hg]
  refine ReducesTo.bind (reducesTo_of_evaluating hO (.stepAlong opt it it.g.neg.normalize)) ?_
  rintro ⟨step, next⟩ _ ⟨rfl, t, ht⟩
  refine ReducesTo.bind (.note (hO _ rfl)) fun _ _ _ => ?_
  refine ReducesTo.bind (.progress (hO _ rfl)) fun _ _ _ => ?_
  obtain ⟨t₁, step', t₂, h₁, h₂, rfl⟩ := ends_bind_ok_iff.mp ht
  obtain ⟨t₃, next', t₄, h₃, h₄, rfl⟩ := ends_bind_ok_iff.mp h₂
  obtain ⟨-, hpair⟩ := ends_pure_iff.mp h₄
  cases hpair
  obtain ⟨hpoint, hlength⟩ := shape_of_ends_iterate h₃
  have hnext := Vec.length_along_eq hx hunit step.alpha
  exact .pure ⟨rfl, rfl, h.memory k it m hm, hpoint ▸ hnext, hlength.trans hnext⟩

/-- **The loop of a strategy that follows the gradient is that of steepest descent.** -/
theorem reduces_descentLoop (h : strategy.FollowsGradient O n Keeps)
    (hO : ∀ q : Question α, q.isUpdate = false → O.omits q = false) :
    (descentLoop strategy opt).Related (reducing O) (descentLoop .steepest opt)
      (fun s s' => s.1 = s'.1 ∧ Keeps s.2 ∧ s.1.x.length = n ∧ s.1.g.length = n)
      (fun _ _ i i' => i.next = i'.next ∧ i.progress = i'.progress ∧ Keeps i.memory ∧
        i.next.x.length = n ∧ i.next.g.length = n) Eq where
  iteration k s s' hs := by
    obtain ⟨it, m⟩ := s
    obtain ⟨it', ⟨⟩⟩ := s'
    obtain ⟨rfl, hm, hx, hg⟩ := hs
    exact h.reducesTo_iteration hO k hm hx hg
  met? opt s s' i i' hs hi := by
    simp [Loop.met?, descentLoop, hs.1, hi.1, hi.2.1]
  carry s s' i i' hs hi := by
    obtain ⟨hnext, -, hm, hx, hg⟩ := hi
    refine ReducesTo.bind (h.absorb s.1 i.next i.memory hm) fun m _ hm => ?_
    exact .pure ⟨hnext, hm, hx, hg⟩
  finish s s' i i' flag hi := by
    simp only [Loop.finish, descentLoop, hi.1, hi.2.1]
    exact ReducesTo.bind (.note (hO _ rfl)) fun _ _ _ => .pure rfl

/-- **A run of a strategy that follows the gradient is one of steepest descent.** -/
theorem reducesTo {x₀ : Vec α} {m : S} (h : strategy.FollowsGradient O x₀.length Keeps)
    (hO : ∀ q : Question α, q.isUpdate = false → O.omits q = false) (hm : Keeps m) :
    (minimize strategy m opt x₀).ReducesTo O Eq (minimize .steepest () opt x₀) := by
  refine ReducesTo.check fun _ _ => ?_
  cases x₀ with
  | nil => exact .throw _
  | cons a x =>
    refine ReducesTo.bind (reducesTo_of_evaluating hO (.iterate (a :: x) opt.fdStep)) ?_
    rintro it _ ⟨rfl, t, ht⟩
    obtain ⟨hx, hg⟩ := shape_of_ends_iterate ht
    rw [descend_eq_run, descend_eq_run]
    exact (h.reduces_descentLoop hO).run opt _ 0 ⟨rfl, hm, by rw [hx], hg⟩

end Strategy.FollowsGradient

/-! ### One dimension -/

/-- Nothing is left out. -/
def withoutNothing : Omission (Answer α) := ⟨fun _ => false, fun _ _ => True⟩

/-- Restarted at every iteration, conjugate directions are the negative gradients. -/
theorem Strategy.followsGradient_fletcherReeves (n : Nat) :
    (fletcherReeves 1 : Strategy α _).FollowsGradient withoutNothing n fun _ => True where
  direction k it last _ _ := by
    have hrestart : ¬ (k % 1 ≠ 0) := not_not.mpr (Nat.mod_one k)
    cases last with
    | none => rfl
    | some last => simp [fletcherReeves, conjugateTo, hrestart]
  memory _ _ _ _ := trivial
  absorb _ _ _ _ := .pure trivial

/-- **In one dimension the method of conjugate gradients is steepest descent.** -/
theorem Run.conjugateGradient_eq (opt : Options α) {x₀ : Vec α} (hx₀ : x₀.length = 1) :
    conjugateGradient opt x₀ = steepestDescent opt x₀ := by
  have hrun : (minimize (.fletcherReeves 1) none opt x₀).ReducesTo withoutNothing Eq
      (minimize .steepest () opt x₀) :=
    (Strategy.followsGradient_fletcherReeves x₀.length).reducesTo (fun _ _ => rfl) trivial
  rw [conjugateGradient, hx₀, Nat.max_self]
  exact ReducesTo.eq_of_omits_nothing hrun fun _ => rfl

/-! ### Updates that come to nothing -/

/-- Calls of the update rule and notes about skipped updates are left out. The calls are considered
where the rule wants for curvature, or gives a change that is zero. -/
def withoutUpdates : Omission (Answer ℝ) where
  omits := Question.isUpdate
  Admits
    | .update b _ _, answer =>
      (∃ c, answer = .error (.illConditionedUpdate c)) ∨ answer = .ok b.cleared
    | _, _ => True

/-- Without updates the approximation stays the identity. -/
theorem Strategy.followsGradient_quasiNewton (n : ℕ) :
    (quasiNewton : Strategy ℝ _).FollowsGradient withoutUpdates n fun b => b = .identity n where
  direction k it b hb hg := by
    subst hb
    exact congrArg Vec.neg (Mat.mulVec_identity hg)
  memory _ _ _ hb := hb
  absorb prev next b hb := by
    refine Run.ReducesTo.leaves rfl fun answer hanswer => ?_
    rcases hanswer with ⟨c, rfl⟩ | rfl
    · exact Run.ReducesTo.leaves rfl fun _ _ => .pure hb
    · exact .pure ((Mat.add_cleared b).trans hb)

/-- **A quasi-Newton run whose updates come to nothing is one of steepest descent.** -/
theorem Run.reducesTo_steepestDescent (opt : Options ℝ) (x₀ : Vec ℝ) :
    (quasiNewton opt x₀).ReducesTo withoutUpdates Eq (steepestDescent opt x₀) :=
  (Strategy.followsGradient_quasiNewton x₀.length).reducesTo (fun _ hq => hq) rfl

/-! ### Runs on problems -/

section Beside

variable {σ τ β : Type}

/-- Acts on the first of two states. -/
def onFirst (m : StateM σ β) : StateM (σ × τ) β := fun s => ((m.run s.1).1, (m.run s.1).2, s.2)

/-- Acts on the second of two states. -/
def onSecond (m : StateM τ β) : StateM (σ × τ) β := fun s => ((m.run s.2).1, s.1, (m.run s.2).2)

/-- The problem with an update rule and a log that keep a state of their own. -/
def Callbacks.withRule {α : Type} (problem : Callbacks (StateM σ) α)
    (rule : Mat α → Vec α → Vec α → StateM τ (Except (Failure α) (Mat α)))
    (log : Note α → StateM τ Unit) : Callbacks (StateM (σ × τ)) α where
  objective x := onFirst (problem.objective x)
  constraints x := onFirst (problem.constraints x)
  gradient x h := onFirst (problem.gradient x h)
  update b dx dg := onSecond (rule b dx dg)
  progress p := onFirst (problem.progress p)
  note n := onSecond (log n)

/-- An update rule that comes to nothing: whenever it is called, it wants for curvature, or gives a
change that is zero. -/
def IdleRule (rule : Mat ℝ → Vec ℝ → Vec ℝ → StateM τ (Except (Failure ℝ) (Mat ℝ))) : Prop :=
  ∀ b dx dg w, (∃ c, ((rule b dx dg).run w).1 = .error (.illConditionedUpdate c)) ∨
    ((rule b dx dg).run w).1 = .ok b.cleared

end Beside

namespace Run

/-- **Degenerate strategies are steepest descent**, whatever the callbacks answer, also if their
answers change from call to call, and whether or not the run fails. In one dimension the method of
conjugate gradients makes the same calls with the same answers, and has the same outcome, in any
arithmetic. In exact arithmetic, a quasi-Newton run with an update rule that always wants for
curvature or gives a zero change has the same outcome, and makes the same calls apart from those of
the rule and the notes about skipped updates. -/
theorem degenerate_of_recordOn :
    (∀ {α : Type} [Scalar α] {σ : Type} (problem : Callbacks (StateM σ) α) (opt : Options α)
      (x₀ : Vec α) (s : σ), x₀.length = 1 →
      ((conjugateGradient opt x₀).recordOn problem).run s =
        ((steepestDescent opt x₀).recordOn problem).run s) ∧
    ∀ {σ τ : Type} (problem : Callbacks (StateM σ) ℝ)
      (rule : Mat ℝ → Vec ℝ → Vec ℝ → StateM τ (Except (Failure ℝ) (Mat ℝ)))
      (log : Note ℝ → StateM τ Unit), IdleRule rule → ∀ opt x₀ s,
      let out := (((quasiNewton opt x₀).recordOn (problem.withRule rule log)).run s).1
      let out' := (((steepestDescent opt x₀).recordOn (problem.withRule rule log)).run s).1
      out.1 = out'.1 ∧ out.2.filter (fun x => !x.question.isUpdate) = out'.2 := by
  constructor
  · intro α _ σ problem opt x₀ s hx₀
    rw [conjugateGradient_eq opt hx₀]
  · intro σ τ problem rule log hrule opt x₀ s out out'
    -- The two runs agree on the first state; the second is that of the calls left out.
    have homits : ∀ (q : Question ℝ) (s s' : σ × τ), withoutUpdates.omits q = true → s.1 = s'.1 →
        withoutUpdates.Admits q (((problem.withRule rule log).answer q).run s).1 ∧
          (((problem.withRule rule log).answer q).run s).2.1 = s'.1 := by
      intro q s s' hq hs
      cases q with
      | update b dx dg => exact ⟨hrule b dx dg s.2, hs⟩
      | note n => exact ⟨trivial, hs⟩
      | _ => cases hq
    have hasks : ∀ (q : Question ℝ) (s s' : σ × τ), withoutUpdates.omits q = false → s.1 = s'.1 →
        (((problem.withRule rule log).answer q).run s).1 =
            (((problem.withRule rule log).answer q).run s').1 ∧
          (((problem.withRule rule log).answer q).run s).2.1 =
            (((problem.withRule rule log).answer q).run s').2.1 := by
      rintro q ⟨s, w⟩ ⟨_, w'⟩ hq rfl
      cases q with
      | update b dx dg => cases hq
      | _ => exact ⟨rfl, rfl⟩
    obtain ⟨hresult, hcalls⟩ := Omission.Reduces.record homits hasks
      (reducesTo_steepestDescent opt x₀) (rfl : s.1 = s.1)
    exact ⟨hresult.eq, hcalls.symm⟩

/-- A sum of squares that grows with every call, with an update rule that wavers between the two ways
of coming to nothing. -/
theorem degenerate_of_recordOn_waveringRule :
    let problem : Callbacks (StateM ℕ) ℝ := {
      objective := fun x calls => (Vec.dot x x + calls, calls + 1)
      constraints := fun _ => pure ⟨[], []⟩
      gradient := fun x h => pure (.forward x h)
      update := fun b dx dg => pure (UpdateRule.bfgs b dx dg)
      progress := fun _ => pure ()
      note := fun _ => pure () }
    let rule : Mat ℝ → Vec ℝ → Vec ℝ → StateM Bool (Except (Failure ℝ) (Mat ℝ)) :=
      fun b _ _ called => (if called then .ok b.cleared else .error (.illConditionedUpdate 0), !called)
    let out := (((quasiNewton .default [3, 4]).recordOn
      (problem.withRule rule fun _ => pure ())).run (0, false)).1
    let out' := (((steepestDescent .default [3, 4]).recordOn
      (problem.withRule rule fun _ => pure ())).run (0, false)).1
    IdleRule rule ∧ out.1 = out'.1 ∧
      ((conjugateGradient .default [3]).recordOn problem).run 0 =
        ((steepestDescent .default [3]).recordOn problem).run 0 := by
  intro problem rule out out'
  have hrule : IdleRule rule := by
    intro b dx dg called
    cases called
    · exact Or.inl ⟨0, rfl⟩
    · exact Or.inr rfl
  obtain ⟨hconjugate, hquasi⟩ := degenerate_of_recordOn
  obtain ⟨hresult, -⟩ := hquasi problem rule (fun _ => pure ()) hrule .default [3, 4] (0, false)
  exact ⟨hrule, hresult, hconjugate problem .default [3] 0 rfl⟩

end Run

end Optimum

import Optimum.Proofs.Descent.Questions
import Optimum.Proofs.Lagrangian.Failures

/-!
# Paths of outer iterations

An outer iteration of the augmented Lagrangian method is an inner run, the residuals where it ends,
the gradient of the Lagrangian with the new multipliers, and the objective. The inner run and the
gradient are relayed, so that nothing of them reaches the monitor.
-/

namespace Optimum

open Scalar

variable {α : Type} [Scalar α]

/-- A relayed run tells the monitor nothing. -/
theorem Lagrangian.Relayed.progress_eq_nil {l : Lagrangian α} {kept kept' : Kept α}
    {t u : Transcript α} (h : l.Relayed kept t u kept') : u.progress = [] := by
  induction h with
  | nil => rfl
  | fails _ _ ih => exact ih
  | evaluates _ _ ih => exact ih
  | withholds _ ih => exact ih
  | @passes _ _ _ _ x _ hprogress _ ih =>
    obtain ⟨q, a⟩ := x
    cases q with
    | progress p => exact absurd rfl (hprogress p)
    | _ => exact ih

/-- A relayed run is quiet if the run is. -/
theorem Lagrangian.Relayed.quiet {l : Lagrangian α} {kept kept' : Kept α} {t u : Transcript α}
    (h : l.Relayed kept t u kept') (ht : t.Quiet) : u.Quiet := by
  induction h with
  | nil => exact nofun
  | fails _ _ ih =>
    exact List.forall_mem_cons.mpr ⟨trivial, ih (List.forall_mem_cons.mp ht).2⟩
  | evaluates _ _ ih =>
    exact List.forall_mem_cons.mpr
      ⟨trivial, List.forall_mem_cons.mpr ⟨trivial, ih (List.forall_mem_cons.mp ht).2⟩⟩
  | withholds _ ih => exact ih (List.forall_mem_cons.mp ht).2
  | passes _ _ _ ih =>
    obtain ⟨hx, ht⟩ := List.forall_mem_cons.mp ht
    exact List.forall_mem_cons.mpr ⟨hx, ih ht⟩

namespace Run

theorem AsksOnly.under {β : Type} {run : Run α β} (h : AsksOnly Question.Quiet run)
    (l : Lagrangian α) : AsksOnly Question.Quiet (Run.under l run) := by
  intro t r hend
  obtain ⟨u, r', kept, hu, hrelayed, -⟩ := Lagrangian.ends_under hend
  exact hrelayed.quiet (h u r' hu)

variable {opt : Options α} {lagOpt : LagrangianOptions α} {k : Nat} {it : OuterIterate α}
  {t : Transcript α}

/-- A run under a Lagrangian tells the monitor nothing. -/
theorem progress_of_ends_under {β : Type} {l : Lagrangian α} {run : Run α β}
    {r : Except (Failure α) β} (h : Ends (under l run) t r) : t.progress = [] := by
  obtain ⟨_, _, _, -, hrelayed, -⟩ := Lagrangian.ends_under h
  exact hrelayed.progress_eq_nil

theorem ends_checkedConstraints_ok_iff {x : Vec α} {lam : Multipliers α} {r : Residuals α} :
    Ends (checkedConstraints x lam) t (.ok r) ↔
      t = [⟨.constraints x, r⟩] ∧ r.check lam.ineq.length lam.eq.length = .ok () := by
  refine ends_checked_iff.trans ?_
  constructor
  · intro h
    obtain ⟨a, rfl, ha⟩ := h
    cases hcheck : a.check lam.ineq.length lam.eq.length with
    | ok u =>
      rw [hcheck] at ha
      cases ha
      exact ⟨rfl, hcheck⟩
    | error e =>
      rw [hcheck] at ha
      cases ha
  · intro h
    obtain ⟨rfl, hcheck⟩ := h
    exact ⟨r, rfl, by rw [hcheck]; rfl⟩

/-- Outer iteration number `k` from an iterate, given the result of the inner run, the residuals,
the gradient and the objective there. -/
def outerCompleted (lagOpt : LagrangianOptions α) (k : Nat) (it : OuterIterate α)
    (inner : Solution α) (r : Residuals α) (g : Vec α) (f : α) : OuterIteration α where
  inner := inner
  residuals := r
  gradient := g
  next := ⟨inner.x, f, it.multipliers.update lagOpt.rho r⟩
  progress := ⟨k + 1, f, Vec.norm g, Vec.distance inner.x it.x, 1⟩

/-- What is said after an outer iteration. -/
def outerAnnounced (i : OuterIteration α) : Transcript α :=
  [⟨.note (.outer i.progress.iteration i.next.f i.residuals.maxViolation i.progress.gradNorm
    i.inner.exitFlag i.inner.iterations), ()⟩, ⟨.progress i.progress, ()⟩]

theorem ends_outerIteration_ok_iff {i : OuterIteration α} :
    Ends (outerIteration opt lagOpt k it) t (.ok i) ↔ ∃ t₁ inner r t₂ g f,
      Ends (innerRun lagOpt it) t₁ (.ok inner) ∧
      r.check it.multipliers.ineq.length it.multipliers.eq.length = .ok () ∧
      Ends (under ⟨it.multipliers.update lagOpt.rho r, lagOpt.rho⟩
        (finiteGradient inner.x opt.fdStep)) t₂ (.ok g) ∧
      isFinite f = true ∧ i = outerCompleted lagOpt k it inner r g f ∧
      t = t₁ ++ (⟨.constraints inner.x, r⟩ :: t₂) ++ ⟨.objective inner.x, f⟩ ::
        outerAnnounced i := by
  rw [outerIteration, ends_bind_ok_iff]
  constructor
  · intro h
    obtain ⟨t₁, inner, t', h₁, h', rfl⟩ := h
    obtain ⟨t₂, r, t'', h₂, h'', rfl⟩ := ends_bind_ok_iff.mp h'
    obtain ⟨rfl, hcheck⟩ := ends_checkedConstraints_ok_iff.mp h₂
    obtain ⟨t₃, g, t₄, h₃, h₄, rfl⟩ := ends_bind_ok_iff.mp h''
    obtain ⟨t₅, f, t₆, h₅, h₆, rfl⟩ := ends_bind_ok_iff.mp h₄
    obtain ⟨v, rfl, hv⟩ := ends_finiteObjective_iff.mp h₅
    split at hv
    next hfinite =>
      cases hv
      obtain ⟨t₇, rfl, h₇⟩ := ends_note_bind_iff.mp h₆
      obtain ⟨t₈, rfl, h₈⟩ := ends_progress_bind_iff.mp h₇
      obtain ⟨rfl, hi⟩ := ends_pure_iff.mp h₈
      cases hi
      exact ⟨t₁, inner, r, t₃, g, f, h₁, hcheck, h₃, hfinite, rfl, by simp [outerAnnounced]⟩
    next => cases hv
  · intro h
    obtain ⟨t₁, inner, r, t₂, g, f, h₁, hcheck, h₂, hfinite, rfl, rfl⟩ := h
    rw [List.append_assoc]
    refine ⟨t₁, inner, _, h₁, ends_bind_ok_iff.mpr ⟨_, r, _,
      ends_checkedConstraints_ok_iff.mpr ⟨rfl, hcheck⟩, ends_bind_ok_iff.mpr ⟨t₂, g, _, h₂,
        ends_bind_ok_iff.mpr ⟨_, f, _, ends_finiteObjective_iff.mpr ⟨f, rfl, (if_pos hfinite).symm⟩,
          ends_note_bind_iff.mpr ⟨_, rfl, ends_progress_bind_iff.mpr ⟨[], rfl,
            ends_pure_iff.mpr ⟨rfl, rfl⟩⟩⟩, rfl⟩, rfl⟩, rfl⟩, rfl⟩

/-- An outer iteration that fails is quiet after its inner run. -/
theorem exists_quiet_of_ends_outerIteration_error {e : Failure α}
    (h : Ends (outerIteration opt lagOpt k it) t (.error e)) :
    ∃ u v r, t = u ++ v ∧ Ends (innerRun lagOpt it) u r ∧ v.Quiet := by
  have checked : ∀ {x lam u r}, Ends (checkedConstraints (α := α) x lam) u r → u.Quiet := by
    intro x lam u r hu
    obtain ⟨a, rfl, -⟩ := ends_checked_iff.mp hu
    exact List.forall_mem_singleton.mpr trivial
  have estimated : ∀ {l x h u r}, Ends (under l (finiteGradient (α := α) x h)) u r → u.Quiet :=
    fun hu => (AsksOnly.sampling_finiteGradient _ _).quiet.under _ _ _ hu
  rcases ends_bind_error_iff.mp h with h₁ | ⟨u, inner, v, h₁, h₁', rfl⟩
  · exact ⟨t, [], _, (List.append_nil t).symm, h₁, nofun⟩
  refine ⟨u, v, _, rfl, h₁, ?_⟩
  rcases ends_bind_error_iff.mp h₁' with h₂ | ⟨t₂, r, u₂, h₂, h₂', rfl⟩
  · exact checked h₂
  refine (checked h₂).append ?_
  rcases ends_bind_error_iff.mp h₂' with h₃ | ⟨t₃, g, u₃, h₃, h₃', rfl⟩
  · exact estimated h₃
  refine (estimated h₃).append ?_
  rcases ends_bind_error_iff.mp h₃' with h₄ | ⟨t₄, f, u₄, -, h₄', rfl⟩
  · exact (AsksOnly.sampling_finiteObjective _).quiet _ _ h₄
  -- The messages after the evaluations do not fail.
  · obtain ⟨t₅, rfl, h₅⟩ := ends_note_bind_iff.mp h₄'
    obtain ⟨t₆, rfl, h₆⟩ := ends_progress_bind_iff.mp h₅
    obtain ⟨-, h⟩ := ends_pure_iff.mp h₆
    cases h

/-- A completed outer iteration tells the monitor once. -/
theorem progress_of_ends_outerIteration {i : OuterIteration α}
    (h : Ends (outerIteration opt lagOpt k it) t (.ok i)) :
    t.progress = [i.progress] ∧ i.progress.iteration = k + 1 := by
  obtain ⟨t₁, inner, r, t₂, g, f, h₁, -, h₂, -, rfl, rfl⟩ := ends_outerIteration_ok_iff.mp h
  refine ⟨?_, rfl⟩
  have hgradient : t₂.progress = [] := progress_of_ends_under h₂
  have hresiduals : Transcript.progress (⟨.constraints inner.x, r⟩ :: t₂) = [] := hgradient
  rw [Transcript.progress_append, Transcript.progress_append, progress_of_ends_under h₁,
    hresiduals]
  rfl

private theorem augmentedLagrangian_eq (x₀ : Vec α) :
    augmentedLagrangian opt lagOpt x₀ = (do
      liftM opt.validate
      liftM lagOpt.validate
      if x₀ = [] then throw .emptyDesignVector
      else do
        let a ← initialConstraints x₀
        let f ← finiteObjective x₀
        outerDescend opt lagOpt (opt.maxIt - 1) 0
          ⟨x₀, f, .zeros a.ineq.length a.eq.length⟩) := by
  cases x₀ <;> rfl

/-- A run of the augmented Lagrangian method with outer options that pass the check. -/
theorem augmentedLagrangian_of_valid (h : opt.validate = .ok ()) (x₀ : Vec α) :
    augmentedLagrangian opt lagOpt x₀ = (do
      liftM lagOpt.validate
      if x₀ = [] then throw .emptyDesignVector
      else do
        let a ← initialConstraints x₀
        let f ← finiteObjective x₀
        outerDescend opt lagOpt (opt.maxIt - 1) 0
          ⟨x₀, f, .zeros a.ineq.length a.eq.length⟩) := by
  rw [augmentedLagrangian_eq, h]
  rfl

/-- A run of the augmented Lagrangian method is refused, cannot be started, or iterates from the
residuals and the objective at its starting point. -/
theorem of_ends_augmentedLagrangian {x₀ : Vec α}
    {r : Except (Failure α) (Solution α × Multipliers α)}
    (h : Ends (augmentedLagrangian opt lagOpt x₀) t r) :
    (∃ e, r = .error e ∧ ∀ x ∈ t, x.question = .constraints x₀ ∨ x.question = .objective x₀) ∨
      ∃ a f u, opt.fault? = none ∧ lagOpt.fault? = none ∧ x₀ ≠ [] ∧ a.checkFinite = .ok () ∧
        isFinite f = true ∧ t = ⟨.constraints x₀, a⟩ :: ⟨.objective x₀, f⟩ :: u ∧
        Ends (outerDescend opt lagOpt (opt.maxIt - 1) 0
          ⟨x₀, f, .zeros a.ineq.length a.eq.length⟩) u r := by
  rw [augmentedLagrangian_eq] at h
  rcases ends_liftM_bind_iff.mp h with ⟨e, -, rfl, rfl⟩ | ⟨⟨⟩, hopt, h⟩
  · exact Or.inl ⟨e, rfl, nofun⟩
  rcases ends_liftM_bind_iff.mp h with ⟨e, -, rfl, rfl⟩ | ⟨⟨⟩, hlag, h⟩
  · exact Or.inl ⟨e, rfl, nofun⟩
  have hlag : lagOpt.fault? = none := by
    unfold LagrangianOptions.validate at hlag
    split at hlag
    next => cases hlag
    next hnone => exact hnone
  split at h
  next =>
    obtain ⟨rfl, rfl⟩ := ends_throw_iff.mp h
    exact Or.inl ⟨_, rfl, nofun⟩
  next hx₀ =>
    rcases ends_bind_iff.mp h with ⟨e, h₁, rfl⟩ | ⟨t₁, a, t', h₁, h', rfl⟩
    · obtain ⟨a, rfl, -⟩ := ends_checked_iff.mp h₁
      exact Or.inl ⟨e, rfl, by simp⟩
    obtain ⟨a₀, rfl, ha⟩ := ends_checked_iff.mp h₁
    obtain ⟨hcheck, rfl⟩ : a₀.checkFinite = .ok () ∧ a = a₀ := by
      cases hcheck : a₀.checkFinite with
      | error e =>
        rw [hcheck] at ha
        cases ha
      | ok u =>
        rw [hcheck] at ha
        cases ha
        exact ⟨rfl, rfl⟩
    rcases ends_bind_iff.mp h' with ⟨e, h₂, rfl⟩ | ⟨t₂, f, u, h₂, h₃, rfl⟩
    · obtain ⟨v, rfl, -⟩ := ends_finiteObjective_iff.mp h₂
      exact Or.inl ⟨e, rfl, by simp⟩
    · obtain ⟨v, rfl, hv⟩ := ends_finiteObjective_iff.mp h₂
      split at hv
      next hfinite =>
        cases hv
        exact Or.inr ⟨a, f, u, Options.validate_eq_ok_iff.mp hopt, hlag, hx₀, hcheck, hfinite, rfl,
          h₃⟩
      next => cases hv

end Run

end Optimum

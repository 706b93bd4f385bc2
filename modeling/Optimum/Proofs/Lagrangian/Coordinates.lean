import Optimum.AugmentedLagrangian
import Optimum.Proofs.Descent.NonFinite
import Optimum.Proofs.Lagrangian.Relay

/-!
# Points that keep their coordinates

At a point without coordinates forward differences have no quotient in which a value that is not
finite would show. A run of the augmented Lagrangian method starts at a point with coordinates, and
its points keep theirs as long as the update rule leaves rows: an inner run stays in the dimension of
its starting point, and the outer iterations go where the inner runs end.

## What is proved

* `Run.KeepsCoordinates` is what a part of a run guarantees, with a rule for sequences
  (`Run.KeepsCoordinates.bind`) and one for runs under a Lagrangian (`Run.KeepsCoordinates.under`).
* `Run.KeepsCoordinates.outerIteration` is the step lemma, and `Run.KeepsCoordinates.outerDescend`
  follows from it by induction on the iterations left.
* `Callbacks.Estimates.exposes_recordOn`: where all estimates of a run on a problem expose the values
  that they are made of.
-/

namespace Optimum

open Scalar

variable {α β γ : Type} [Scalar α]

section Relayed

variable {l : Lagrangian α} {kept kept' : Kept α} {t u : Transcript α}

/-- A relayed run estimates gradients where the run does. -/
theorem Lagrangian.Relayed.iterates_eq (h : l.Relayed kept t u kept') : u.iterates = t.iterates :=
  h.filterMap_eq (fun _ _ => rfl) (fun _ _ => rfl) fun _ _ => rfl

theorem Lagrangian.Relayed.exposes (h : l.Relayed kept t u kept') (hexp : u.Exposes) :
    t.Exposes := fun x step plan hx => hexp x step plan (h.mem hx nofun nofun)

theorem Lagrangian.Relayed.keepsRows (h : l.Relayed kept t u kept') (hrows : u.KeepsRows) :
    t.KeepsRows := fun b dx dg db hx => hrows b dx dg db (h.mem hx nofun nofun)

end Relayed

namespace Run

/-- Every path of the run on which the update rule leaves rows estimates gradients at points with
coordinates only, and gives what `post` says. -/
def KeepsCoordinates (run : Run α β) (post : β → Prop) : Prop :=
  ∀ t r, Ends run t r → t.KeepsRows → (∀ x ∈ t.iterates, x ≠ []) ∧ ∀ b, r = .ok b → post b

namespace KeepsCoordinates

variable {run : Run α β} {post : β → Prop}

omit [Scalar α] in
theorem bind {f : β → Run α γ} {post' : γ → Prop} (h : KeepsCoordinates run post)
    (hf : ∀ b, post b → KeepsCoordinates (f b) post') : KeepsCoordinates (run >>= f) post' := by
  intro t r hend hrows
  rcases ends_bind_iff.mp hend with ⟨e, h₁, rfl⟩ | ⟨t₁, b, t₂, h₁, h₂, rfl⟩
  · exact ⟨(h t _ h₁ hrows).1, nofun⟩
  · rw [Transcript.keepsRows_append_iff] at hrows
    obtain ⟨hiterates, hpost⟩ := h t₁ _ h₁ hrows.1
    obtain ⟨hiterates', hpost'⟩ := hf b (hpost b rfl) t₂ r h₂ hrows.2
    rw [Transcript.iterates_append]
    exact ⟨List.forall_mem_append.mpr ⟨hiterates, hiterates'⟩, hpost'⟩

omit [Scalar α] in
theorem pure {b : β} (hb : post b) : KeepsCoordinates (Pure.pure b : Run α β) post := by
  intro t r hend _
  obtain ⟨rfl, rfl⟩ := ends_pure_iff.mp hend
  refine ⟨nofun, fun b' hb' => ?_⟩
  cases hb'
  exact hb

omit [Scalar α] in
theorem throw (e : Failure α) : KeepsCoordinates (MonadExcept.throw e : Run α β) post := by
  intro t r hend _
  obtain ⟨rfl, rfl⟩ := ends_throw_iff.mp hend
  exact ⟨nofun, nofun⟩

omit [Scalar α] in
theorem check (x : Except (Failure α) β) : KeepsCoordinates (liftM x : Run α β) fun _ => True := by
  intro t r hend _
  obtain ⟨rfl, -⟩ := ends_liftM_iff.mp hend
  exact ⟨nofun, fun _ _ => trivial⟩

omit [Scalar α] in
/-- A question other than for a gradient. -/
theorem query {q : Question α} (hq : ∀ x h, q ≠ .gradient x h) :
    KeepsCoordinates (Run.query q) fun _ => True := by
  intro t r hend _
  obtain ⟨a, rfl, -⟩ := ends_query_iff.mp hend
  refine ⟨fun x hx => ?_, fun _ _ => trivial⟩
  obtain ⟨y, hy, hx⟩ := List.mem_filterMap.mp hx
  cases List.mem_singleton.mp hy
  cases q with
  | gradient y h => exact absurd rfl (hq y h)
  | _ => cases hx

/-- A run under a Lagrangian estimates gradients where the run does. -/
theorem under (l : Lagrangian α) (h : KeepsCoordinates run post) :
    KeepsCoordinates (Run.under l run) post := by
  intro u r hend hrows
  obtain ⟨t, r', kept, ht, hrelayed, rfl⟩ := Lagrangian.ends_under hend
  obtain ⟨hiterates, hpost⟩ := h t r' ht (hrelayed.keepsRows hrows)
  rw [hrelayed.iterates_eq]
  refine ⟨hiterates, fun b hb => ?_⟩
  cases r' with
  | error e => cases hb
  | ok b' =>
    cases hb
    exact hpost b rfl

theorem finiteObjective (x : Vec α) : KeepsCoordinates (Run.finiteObjective x) fun _ => True := by
  refine bind (query nofun) fun v _ => ?_
  split
  · exact pure trivial
  · exact throw _

theorem finiteGradient {x : Vec α} (hx : x ≠ []) (h : α) :
    KeepsCoordinates (Run.finiteGradient x h) fun _ => True := by
  intro t r hend _
  rw [iterates_of_ends_finiteGradient hend]
  exact ⟨List.forall_mem_singleton.mpr hx, fun _ _ => trivial⟩

theorem quasiNewton (opt : Options α) {x₀ : Vec α} (hx₀ : x₀ ≠ []) :
    KeepsCoordinates (Run.quasiNewton opt x₀) fun sol => sol.x ≠ [] := by
  intro t r hend hrows
  have hsolve : Ends (Method.quasiNewton.solve opt x₀) t r := hend
  obtain ⟨hiterates, hsol⟩ := Method.length_of_ends hsolve fun _ => hrows
  have hne : ∀ x : Vec α, x.length = x₀.length → x ≠ [] := fun x hx hnil =>
    hx₀ (List.length_eq_zero_iff.mp (hx.symm.trans (congrArg List.length hnil)))
  exact ⟨fun x hx => hne x (hiterates x hx), fun sol hok => hne sol.x (hsol sol hok)⟩

/-! ### The augmented Lagrangian method -/

variable (opt : Options α) (lagOpt : LagrangianOptions α)

/-- **An outer iteration goes from a point with coordinates to one.** -/
theorem outerIteration (k : Nat) {it : OuterIterate α} (hit : it.x ≠ []) :
    KeepsCoordinates (Run.outerIteration opt lagOpt k it) fun i => i.next.x ≠ [] := by
  refine bind (under _ (quasiNewton lagOpt.inner hit)) fun inner hinner => ?_
  have hresiduals : KeepsCoordinates (checkedConstraints inner.x it.multipliers) fun _ => True :=
    bind (query nofun) fun r _ => bind (check _) fun _ _ => pure trivial
  refine bind hresiduals fun r _ => ?_
  refine bind (under _ (finiteGradient hinner opt.fdStep)) fun g _ => ?_
  refine bind (finiteObjective inner.x) fun f _ => ?_
  exact bind (query nofun) fun _ _ => bind (query nofun) fun _ _ => pure hinner

theorem outerDescend (left k : Nat) {it : OuterIterate α} (hit : it.x ≠ []) :
    KeepsCoordinates (Run.outerDescend opt lagOpt left k it) fun _ => True := by
  have hfinish : ∀ (i : OuterIteration α) flag,
      KeepsCoordinates (Run.outerFinish i flag) fun _ => True := fun i flag =>
    bind (query nofun) fun _ _ => pure trivial
  induction left generalizing k it with
  | zero => exact bind (outerIteration opt lagOpt k hit) fun i _ => hfinish i _
  | succ left ih =>
    refine bind (outerIteration opt lagOpt k hit) fun i hi => ?_
    dsimp only
    split
    · exact hfinish i _
    · exact ih (k + 1) hi

/-- **A run of the augmented Lagrangian method never estimates a gradient at a point without
coordinates**, if the update rule leaves rows. -/
theorem augmentedLagrangian (x₀ : Vec α) :
    KeepsCoordinates (Run.augmentedLagrangian opt lagOpt x₀) fun _ => True := by
  refine bind (check _) fun _ _ => bind (check _) fun _ _ => ?_
  cases x₀ with
  | nil => exact throw _
  | cons v vs =>
    have hinitial : KeepsCoordinates (initialConstraints (v :: vs)) fun _ => True :=
      bind (query nofun) fun r _ => bind (check _) fun _ _ => pure trivial
    refine bind hinitial fun r _ => bind (finiteObjective _) fun f _ => ?_
    exact outerDescend opt lagOpt _ 0 (List.cons_ne_nil v vs)

end KeepsCoordinates

end Run

/-! ### Runs on problems -/

namespace Callbacks

variable {σ : Type} {problem : Callbacks (StateM σ) α}

/-- Gradients are estimated by difference quotients, forward or central ones. -/
def Differences (problem : Callbacks (StateM σ) α) : Prop :=
  ∀ x h s, ((problem.gradient x h).run s).1 = .forward x h ∨
    ((problem.gradient x h).run s).1 = .central x h

/-- Gradients are estimated by difference quotients, or without the objective. -/
def Estimates (problem : Callbacks (StateM σ) α) : Prop :=
  ∀ x h s, ((problem.gradient x h).run s).1 = .forward x h ∨
    ((problem.gradient x h).run s).1 = .central x h ∨
      ∃ g, ((problem.gradient x h).run s).1 = .done g

theorem Differences.estimates (h : problem.Differences) : problem.Estimates := fun x step s =>
  (h x step s).imp_right Or.inl

/-- Forward differences are in use. -/
def UsesForward (problem : Callbacks (StateM σ) α) : Prop :=
  ∃ x h s, ((problem.gradient x h).run s).1 = .forward x h

/-- An estimate exposes the values that it is made of, at least if the point has a coordinate. Other
than by forward differences it does so everywhere. -/
theorem Estimates.exposes [PassesNonFinite α] (hest : problem.Estimates) (x : Vec α) (h : α) (s : σ)
    (hx : problem.UsesForward → x ≠ []) : Plan.Exposes ((problem.gradient x h).run s).1 := by
  rcases hest x h s with hplan | hplan | ⟨g, hplan⟩
  · rw [hplan]
    exact Plan.exposes_forward (hx ⟨x, h, s, hplan⟩) h
  · rw [hplan]
    exact Plan.exposes_central x h
  · rw [hplan]
    intro u g' hu _
    rw [(Dialogue.ends_done_iff.mp hu).1]
    exact nofun

/-- **The estimates of a run of the augmented Lagrangian method expose the values that they are made
of**, if the update rule leaves rows where forward differences are in use. -/
theorem Estimates.exposes_recordOn [PassesNonFinite α] (hest : problem.Estimates) (opt : Options α)
    (lagOpt : LagrangianOptions α) (x₀ : Vec α) (s : σ) :
    let out := (((Run.augmentedLagrangian opt lagOpt x₀).recordOn problem).run s).1
    (problem.UsesForward → out.2.KeepsRows) → out.2.Exposes := by
  intro out hrows x step plan hx
  obtain ⟨s', hs'⟩ := Run.answer_of_recordOn hx
  have hplan : ((problem.gradient x step).run s').1 = plan := hs'
  rw [← hplan]
  refine hest.exposes x step s' fun hforward => ?_
  obtain ⟨hiterates, -⟩ := Run.KeepsCoordinates.augmentedLagrangian opt lagOpt x₀ out.2 out.1
    (Run.ends_recordOn _ s) (hrows hforward)
  exact hiterates x (List.mem_filterMap.mpr ⟨_, hx, rfl⟩)

end Callbacks

end Optimum

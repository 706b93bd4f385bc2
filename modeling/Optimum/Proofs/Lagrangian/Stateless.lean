import Optimum.Proofs.Lagrangian.Optimality
import Optimum.Proofs.Lagrangian.Relay

/-!
# Callbacks without a state

If the callbacks of a problem keep no state, so does the Lagrangian made of them, and it is the
objective of another problem without a state (`Callbacks.under`). A run under the Lagrangian that
gives a result is a run on that problem.

## What is proved

* `Run.ends_of_ends_under`: a path of a run under a Lagrangian comes from a path on the problem whose
  objective is the Lagrangian.
* `Run.Gives` says that a run gives a result, and what is known of it, with a rule for each way of
  putting runs together.
-/

namespace Optimum

open Scalar

variable {α β γ : Type} {p : Callbacks Id α} {t u : Transcript α}

/-! ### Transcripts -/

/-- The objective, the constraints, the estimator of gradients and the update rule are those of `p`,
whatever the state. -/
def Callbacks.Agrees {σ : Type} (problem : Callbacks (StateM σ) α) (p : Callbacks Id α) : Prop :=
  ∀ q s, ((problem.answer q).run s).1 = p.answer q

namespace Transcript

/-- The answers are those of the problem `p`. -/
def AnsweredBy (p : Callbacks Id α) (t : Transcript α) : Prop :=
  ∀ x ∈ t, x.answer = p.answer x.question

theorem AnsweredBy.objectiveIs (h : t.AnsweredBy p) : t.ObjectiveIs p.objective := fun _ hx =>
  h _ (mem_evaluations_iff.mp hx)

theorem AnsweredBy.estimatorIs (h : t.AnsweredBy p) : t.EstimatorIs p.gradient :=
  fun _ _ _ hx => h _ hx

theorem AnsweredBy.left (h : (t ++ u).AnsweredBy p) : t.AnsweredBy p := fun x hx =>
  h x (List.mem_append_left _ hx)

theorem AnsweredBy.right (h : (t ++ u).AnsweredBy p) : u.AnsweredBy p := fun x hx =>
  h x (List.mem_append_right _ hx)

end Transcript

theorem Callbacks.Agrees.recordOn {σ : Type} {problem : Callbacks (StateM σ) α} {run : Run α β}
    {s : σ} (h : problem.Agrees p) : ((run.recordOn problem).run s).1.2.AnsweredBy p := fun x hx => by
  obtain ⟨s', hs'⟩ := Run.answer_of_recordOn hx
  exact hs'.symm.trans (h x.question s')

namespace Run

variable {run : Run α β} {r : Except (Failure α) β} {b : β} {Q : β → Prop} {R : γ → Prop}

/-- The outcome of a path is that of the run on the problem. -/
theorem on_eq_of_ends (h : Ends run t r) (ht : t.AnsweredBy p) : Id.run (run.on p) = r :=
  (Dialogue.Ends.eq_answered p.answer h ht).symm

/-- On the problem `p` the run gives a result, of which `Q` is known. -/
def Gives (p : Callbacks Id α) (run : Run α β) (Q : β → Prop) : Prop :=
  ∀ t r, Ends run t r → t.AnsweredBy p → ∃ b, r = .ok b ∧ Q b

namespace Gives

theorem pure (hb : Q b) : Gives p (Pure.pure b) Q := by
  intro t r h _
  obtain ⟨-, rfl⟩ := ends_pure_iff.mp h
  exact ⟨b, rfl, hb⟩

theorem bind {f : β → Run α γ} (hrun : Gives p run Q) (hf : ∀ b, Q b → Gives p (f b) R) :
    Gives p (run >>= f) R := by
  intro t r h ht
  rcases ends_bind_iff.mp h with ⟨e, h₁, rfl⟩ | ⟨t₁, b, t₂, h₁, h₂, rfl⟩
  · obtain ⟨b, hb, -⟩ := hrun t _ h₁ ht
    cases hb
  · obtain ⟨b', hb, hQ⟩ := hrun t₁ _ h₁ ht.left
    cases hb
    exact hf b hQ t₂ r h₂ ht.right

theorem query (q : Question α) : Gives p (Run.query q) fun a => a = p.answer q := by
  intro t r h ht
  obtain ⟨a, rfl, rfl⟩ := ends_query_iff.mp h
  exact ⟨a, rfl, ht _ List.mem_cons_self⟩

end Gives

end Run

/-! ### Under a Lagrangian -/

variable [Scalar α] {l : Lagrangian α}

/-- The problem whose objective is a Lagrangian. -/
def Callbacks.under (p : Callbacks Id α) (l : Lagrangian α) : Callbacks Id α :=
  { p with objective := l.valueAt p.objective p.constraints }

/-- The answers of a Lagrangian are those of the problem whose objective it is. -/
theorem Lagrangian.Relayed.answeredBy {kept kept' : Kept α} (h : l.Relayed kept t u kept')
    (hu : u.AnsweredBy p) : t.AnsweredBy (p.under l) := by
  induction h with
  | nil => exact nofun
  | @fails _ _ _ _ x r e hcheck _ ih =>
    obtain ⟨hr, hu⟩ := List.forall_mem_cons.mp hu
    refine List.forall_mem_cons.mpr ⟨?_, ih hu⟩
    have hr : p.constraints x = r := hr.symm
    change undefined = l.valueAt p.objective p.constraints x
    simp [valueAt, value, hr, hcheck]
  | @evaluates _ _ _ _ x r v hcheck _ ih =>
    obtain ⟨hr, hu⟩ := List.forall_mem_cons.mp hu
    obtain ⟨hv, hu⟩ := List.forall_mem_cons.mp hu
    refine List.forall_mem_cons.mpr ⟨?_, ih hu⟩
    have hr : p.constraints x = r := hr.symm
    have hv : p.objective x = v := hv.symm
    change l.combine v r = l.valueAt p.objective p.constraints x
    simp [valueAt, value, hr, hcheck, hv]
  | withholds _ ih => exact List.forall_mem_cons.mpr ⟨rfl, ih hu⟩
  | @passes _ _ _ _ x hobjective _ _ ih =>
    obtain ⟨hx, hu⟩ := List.forall_mem_cons.mp hu
    refine List.forall_mem_cons.mpr ⟨?_, ih hu⟩
    obtain ⟨q, a⟩ := x
    cases q with
    | objective y => exact absurd rfl (hobjective y)
    | _ => exact hx

namespace Run

variable {run : Run α β} {b : β} {Q : β → Prop}

/-- **A run under a Lagrangian that gives a result is a run on the problem whose objective is the
Lagrangian.** -/
theorem ends_of_ends_under (h : Ends (under l run) u (.ok b)) (hu : u.AnsweredBy p) :
    ∃ t, Ends run t (.ok b) ∧ t.AnsweredBy (p.under l) := by
  obtain ⟨t, r, kept, ht, hrelayed, hr⟩ := Lagrangian.ends_under h
  cases r with
  | error e => cases hr
  | ok b' =>
    cases hr
    exact ⟨t, ht, hrelayed.answeredBy hu⟩

/-- It gives a result if the run on that problem does. -/
theorem Gives.under (hrun : Gives (p.under l) run Q) : Gives p (Run.under l run) Q := by
  intro u r h hu
  obtain ⟨t, r', kept, ht, hrelayed, rfl⟩ := Lagrangian.ends_under h
  obtain ⟨b, rfl, hQ⟩ := hrun t r' ht (hrelayed.answeredBy hu)
  exact ⟨b, rfl, hQ⟩

end Run

end Optimum

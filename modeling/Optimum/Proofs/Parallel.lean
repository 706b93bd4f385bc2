import Optimum.Proofs.Lagrangian.Stateless
import Optimum.Proofs.Loop

/-!
# Parallel runs

Two runs on two problems without a state, which may ask different questions, also in another order
and number, as long as they come to corresponding results and tell their monitors the same.

## What is proved

* `Run.Parallel.bind` is the rule for sequences, so there is one for loops (`Run.parallel`).
* `Run.Parallel.under`: runs under a Lagrangian are parallel if those with the Lagrangian for an
  objective are, and there is a multiplier for each residual.
-/

namespace Optimum

variable {α β γ δ ε : Type}

namespace Run

variable {p p' : Callbacks Id α} {R : β → γ → Prop} {S : δ → ε → Prop}

/-- On the problem `p` the first run fails as the second one does on `p'`, or both give results that
correspond by `R`, and both tell the monitor the same. -/
def Parallel (p p' : Callbacks Id α) (R : β → γ → Prop) (run : Run α β) (run' : Run α γ) : Prop :=
  ∀ t r t' r', Ends run t r → t.AnsweredBy p → Ends run' t' r' → t'.AnsweredBy p' →
    Corresponds R r r' ∧ t'.progress = t.progress

/-- A gradient estimate: what the plan comes to, with the values of the objective. -/
theorem eq_of_ends_gradient {x : Vec α} {h : α} {t : Transcript α} {r : Except (Failure α) (Vec α)}
    (hend : Ends (gradient x h) t r) (ht : t.AnsweredBy p) :
    r = .ok (Dialogue.answered p.objective (p.gradient x h)) ∧ t.progress = [] := by
  obtain ⟨plan, u, g, hu, rfl, rfl⟩ := ends_gradient_iff.mp hend
  obtain ⟨hplan, hu'⟩ := List.forall_mem_cons.mp ht
  obtain rfl : plan = p.gradient x h := hplan
  have hg : g = Dialogue.answered p.objective (p.gradient x h) :=
    hu.eq_answered p.objective fun e he => hu' _ (List.mem_map_of_mem he)
  exact ⟨congrArg _ hg, Transcript.progress_ofPlan u⟩

namespace Parallel

theorem pure {b : β} {c : γ} (h : R b c) : Parallel p p' R (Pure.pure b) (Pure.pure c) := by
  intro t r t' r' h₁ _ h₂ _
  obtain ⟨rfl, rfl⟩ := ends_pure_iff.mp h₁
  obtain ⟨rfl, rfl⟩ := ends_pure_iff.mp h₂
  exact ⟨.ok h, rfl⟩

theorem throw (e : Failure α) : Parallel p p' R (MonadExcept.throw e) (MonadExcept.throw e) := by
  intro t r t' r' h₁ _ h₂ _
  obtain ⟨rfl, rfl⟩ := ends_throw_iff.mp h₁
  obtain ⟨rfl, rfl⟩ := ends_throw_iff.mp h₂
  exact ⟨.error e, rfl⟩

/-- **Two runs in sequence.** -/
theorem bind {run : Run α β} {run' : Run α γ} {f : β → Run α δ} {f' : γ → Run α ε}
    (hrun : Parallel p p' R run run') (hf : ∀ b c, R b c → Parallel p p' S (f b) (f' c)) :
    Parallel p p' S (run >>= f) (run' >>= f') := by
  intro t r t' r' h ht h' ht'
  rcases ends_bind_iff.mp h with ⟨e, h₁, rfl⟩ | ⟨t₁, b, t₂, h₁, h₂, rfl⟩ <;>
    rcases ends_bind_iff.mp h' with ⟨e', h₁', rfl⟩ | ⟨t₁', c, t₂', h₁', h₂', rfl⟩
  · obtain ⟨he, hprogress⟩ := hrun _ _ _ _ h₁ ht h₁' ht'
    cases he
    exact ⟨.error e, hprogress⟩
  · obtain ⟨he, -⟩ := hrun _ _ _ _ h₁ ht h₁' ht'.left
    cases he
  · obtain ⟨he, -⟩ := hrun _ _ _ _ h₁ ht.left h₁' ht'
    cases he
  · obtain ⟨hb, hprogress⟩ := hrun _ _ _ _ h₁ ht.left h₁' ht'.left
    cases hb with
    | ok hb =>
      obtain ⟨hr, hprogress'⟩ := hf b c hb _ _ _ _ h₂ ht.right h₂' ht'.right
      refine ⟨hr, ?_⟩
      rw [Transcript.progress_append, Transcript.progress_append, hprogress, hprogress']

/-- Two questions, of which neither is a message to the monitor. -/
theorem query (q q' : Question α) {R : Answer α q → Answer α q' → Prop}
    (hq : ∀ x, q ≠ .progress x) (hq' : ∀ x, q' ≠ .progress x) (h : R (p.answer q) (p'.answer q')) :
    Parallel p p' R (Run.query q) (Run.query q') := by
  intro t r t' r' h₁ ht h₂ ht'
  obtain ⟨a, rfl, rfl⟩ := ends_query_iff.mp h₁
  obtain ⟨a', rfl, rfl⟩ := ends_query_iff.mp h₂
  obtain rfl : a = p.answer q := ht _ List.mem_cons_self
  obtain rfl : a' = p'.answer q' := ht' _ List.mem_cons_self
  have hnone : ∀ {q : Question α} (a : Answer α q), (∀ x, q ≠ .progress x) →
      Transcript.progress [⟨q, a⟩] = [] := by
    intro q a hq
    cases q with
    | progress x => exact absurd rfl (hq x)
    | _ => rfl
  exact ⟨.ok h, by rw [hnone _ hq, hnone _ hq']⟩

theorem note (n : Note α) : Parallel p p' Eq (Run.note n) (Run.note n) :=
  query (.note n) (.note n) nofun nofun rfl

theorem notes (ns : List (Note α)) : Parallel p p' Eq (ns.forM Run.note) (ns.forM Run.note) := by
  induction ns with
  | nil => exact pure rfl
  | cons n ns ih => exact bind (note n) fun _ _ _ => ih

/-- Both tell the monitor the same. -/
theorem progress (x : Progress α) : Parallel p p' Eq (Run.progress x) (Run.progress x) := by
  intro t r t' r' h₁ _ h₂ _
  obtain ⟨a, rfl, rfl⟩ := ends_query_iff.mp h₁
  obtain ⟨a', rfl, rfl⟩ := ends_query_iff.mp h₂
  exact ⟨.ok rfl, rfl⟩

/-- A check, which asks nothing, before both. -/
theorem check (x : Except (Failure α) β) : Parallel p p' Eq (liftM x : Run α β) (liftM x) := by
  cases x with
  | error e => exact throw e
  | ok b => exact pure rfl

/-- Two estimates, by plans that may evaluate the objective at different points. -/
theorem gradient {x y : Vec α} {h h' : α} {R : Vec α → Vec α → Prop}
    (hR : R (Dialogue.answered p.objective (p.gradient x h))
      (Dialogue.answered p'.objective (p'.gradient y h'))) :
    Parallel p p' R (Run.gradient x h) (Run.gradient y h') := by
  intro t r t' r' h₁ ht h₂ ht'
  obtain ⟨rfl, hprogress⟩ := eq_of_ends_gradient h₁ ht
  obtain ⟨rfl, hprogress'⟩ := eq_of_ends_gradient h₂ ht'
  exact ⟨.ok hR, hprogress'.trans hprogress.symm⟩

/-- A dialogue whose questions two runs answer. -/
theorem run {Q : Type} {A : Q → Type} {answer answer' : (q : Q) → Run α (A q)}
    (h : ∀ q, Parallel p p' Eq (answer q) (answer' q)) (d : Dialogue A β) :
    Parallel p p' Eq (d.run answer) (d.run answer') := by
  induction d with
  | done b => exact pure rfl
  | ask q next ih =>
    refine bind (h q) fun a a' ha => ?_
    subst ha
    exact ih a

/-- The outcomes of whole runs, on problems that answer like these. -/
theorem recordOn {run : Run α β} {run' : Run α γ} {σ σ' : Type}
    {problem : Callbacks (StateM σ) α} {problem' : Callbacks (StateM σ') α}
    (h : Parallel p p' R run run') (hp : problem.Agrees p) (hp' : problem'.Agrees p') (s : σ)
    (s' : σ') :
    let out := ((run.recordOn problem).run s).1
    let out' := ((run'.recordOn problem').run s').1
    Corresponds R out.1 out'.1 ∧ out'.2.progress = out.2.progress :=
  h _ _ _ _ (ends_recordOn run s) hp.recordOn (ends_recordOn run' s') hp'.recordOn

end Parallel

/-- Parallel runs can be put in sequence, so loops are parallel if their iterations are. -/
def parallel (p p' : Callbacks Id α) : Run.Relation α where
  Holds R run run' := Parallel p p' R run run'
  bind hrun hf := hrun.bind hf

end Run

/-! ### Under a Lagrangian -/

variable [Scalar α] {p p' : Callbacks Id α} {l : Lagrangian α}

/-- If there is a multiplier for each residual, no failure is kept. -/
theorem Lagrangian.Relayed.kept_of_fits {kept kept' : Kept α} {t u : Transcript α}
    (h : l.Relayed kept t u kept') (hu : u.AnsweredBy p)
    (hcheck : ∀ x, l.check (p.constraints x) = .ok ()) : kept' = kept := by
  induction h with
  | nil => rfl
  | @fails _ _ _ _ x r e hfails _ _ =>
    have hr : r = p.constraints x := hu ⟨.constraints x, r⟩ List.mem_cons_self
    rw [hr, hcheck x] at hfails
    cases hfails
  | evaluates _ _ ih =>
    exact ih fun x hx => hu x (List.mem_cons_of_mem _ (List.mem_cons_of_mem _ hx))
  | withholds _ ih => exact ih hu
  | passes _ _ _ ih => exact ih fun x hx => hu x (List.mem_cons_of_mem _ hx)

/-- **Runs under a Lagrangian are parallel** if those on the problems with the Lagrangian for an
objective are. -/
theorem Run.Parallel.under {run : Run α β} {run' : Run α γ} {R : β → γ → Prop}
    (hcheck : ∀ x, l.check (p.constraints x) = .ok ())
    (hcheck' : ∀ x, l.check (p'.constraints x) = .ok ())
    (h : Parallel (p.under l) (p'.under l) R run run') :
    Parallel p p' R (Run.under l run) (Run.under l run') := by
  intro u r u' r' hends hu hends' hu'
  obtain ⟨t, r, kept, ht, hrelayed, rfl⟩ := Lagrangian.ends_under hends
  obtain ⟨t', r', kept', ht', hrelayed', rfl⟩ := Lagrangian.ends_under hends'
  obtain ⟨hr, -⟩ := h t r t' r' ht (hrelayed.answeredBy hu) ht' (hrelayed'.answeredBy hu')
  have hkept : kept = none := hrelayed.kept_of_fits hu hcheck
  have hkept' : kept' = none := hrelayed'.kept_of_fits hu' hcheck'
  subst hkept hkept'
  refine ⟨?_, by rw [hrelayed.progress_eq_nil, hrelayed'.progress_eq_nil]⟩
  cases hr with
  | error e => exact .error e
  | ok hb => exact .ok hb

end Optimum

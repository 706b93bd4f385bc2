import Optimum.Lagrangian
import Optimum.Proofs.Outcomes

/-!
# Runs under a Lagrangian

A run that takes a Lagrangian for its objective has a dialogue with the Lagrangian, which has one
with the problem. `Relayed` relates the two transcripts, exchange by exchange, together with the
failure that the Lagrangian keeps: an evaluation of the objective becomes one of the constraints,
followed by one of the objective if the residuals pass the check.

## What is proved

* `ends_under`: a path of a run under a Lagrangian comes from a path of the run.
* `Relayed.kept_eq`: the failure kept is the first among the evaluations of the constraints.
-/

namespace Optimum

open Scalar

variable {α : Type} [Scalar α]

/-! ### The first failure -/

/-- What is wrong with residuals, of which there should be `ng` and `nh`. -/
def Residuals.failure? (r : Residuals α) (ng nh : Nat) : Option (Failure α) :=
  match r.check ng nh with
  | .ok () => none
  | .error e => some e

theorem Residuals.failure?_eq_some_iff {r : Residuals α} {ng nh : Nat} {e : Failure α} :
    r.failure? ng nh = some e ↔ r.check ng nh = .error e := by
  unfold failure?
  cases r.check ng nh with
  | ok u => exact ⟨nofun, nofun⟩
  | error e' => exact ⟨fun h => congrArg _ (Option.some.inj h), fun h => by cases h; rfl⟩

theorem Residuals.failure?_eq_none_iff {r : Residuals α} {ng nh : Nat} :
    r.failure? ng nh = none ↔ r.check ng nh = .ok () := by
  unfold failure?
  cases r.check ng nh with
  | ok u => exact ⟨fun _ => rfl, fun _ => rfl⟩
  | error e' => exact ⟨nofun, nofun⟩

namespace Transcript

/-- The failure that describes the first evaluation of the constraints that is not as it should
be. -/
def firstFailure (ng nh : Nat) (t : Transcript α) : Option (Failure α) :=
  t.constraintEvaluations.findSome? fun p => p.2.failure? ng nh

variable {ng nh : Nat}

@[simp] theorem firstFailure_nil : firstFailure ng nh ([] : Transcript α) = none := rfl

@[simp] theorem firstFailure_append (t u : Transcript α) :
    firstFailure ng nh (t ++ u) = (firstFailure ng nh t).or (firstFailure ng nh u) := by
  rw [firstFailure, constraintEvaluations_append, List.findSome?_append]
  rfl

@[simp] theorem firstFailure_constraints_cons (x : Vec α) (r : Residuals α) (t : Transcript α) :
    firstFailure ng nh (⟨.constraints x, r⟩ :: t) =
      (r.failure? ng nh).or (firstFailure ng nh t) := by
  change List.findSome? _ ((x, r) :: t.constraintEvaluations) = _
  rw [List.findSome?_cons]
  cases r.failure? ng nh <;> rfl

theorem firstFailure_cons {x : Dialogue.Exchange (Answer α)} {t : Transcript α}
    (hx : ∀ y, x.question ≠ .constraints y) :
    firstFailure ng nh (x :: t) = firstFailure ng nh t := by
  obtain ⟨q, a⟩ := x
  cases q with
  | constraints y => exact absurd rfl (hx y)
  | _ => rfl

theorem Unconstrained.firstFailure {t : Transcript α} (h : t.Unconstrained) :
    firstFailure ng nh t = none := by
  induction t with
  | nil => rfl
  | cons x t ih =>
    obtain ⟨hx, ht⟩ := List.forall_mem_cons.mp h
    rw [firstFailure_cons hx]
    exact ih ht

end Transcript

namespace Lagrangian

/-! ### Two transcripts -/

/-- The exchanges of a run with a Lagrangian, those with the problem that they gave rise to, and the
failure kept before and after them. -/
inductive Relayed (l : Lagrangian α) :
    Kept α → Transcript α → Transcript α → Kept α → Prop where
  /-- Nothing has been asked. -/
  | nil {kept : Kept α} : Relayed l kept [] [] kept
  /-- An evaluation at a point where the residuals do not pass the check. -/
  | fails {kept kept' : Kept α} {t u : Transcript α} {x : Vec α} {r : Residuals α}
      {e : Failure α} : l.check r = .error e → Relayed l (kept.keep e) t u kept' →
      Relayed l kept (⟨.objective x, undefined⟩ :: t) (⟨.constraints x, r⟩ :: u) kept'
  /-- An evaluation where they do. -/
  | evaluates {kept kept' : Kept α} {t u : Transcript α} {x : Vec α} {r : Residuals α} {v : α} :
      l.check r = .ok () → Relayed l kept t u kept' →
      Relayed l kept (⟨.objective x, l.combine v r⟩ :: t)
        (⟨.constraints x, r⟩ :: ⟨.objective x, v⟩ :: u) kept'
  /-- A message for the monitor. -/
  | withholds {kept kept' : Kept α} {t u : Transcript α} {p : Progress α} :
      Relayed l kept t u kept' → Relayed l kept (⟨.progress p, ()⟩ :: t) u kept'
  /-- Another question, which is passed on. -/
  | passes {kept kept' : Kept α} {t u : Transcript α} {x : Dialogue.Exchange (Answer α)} :
      (∀ y, x.question ≠ .objective y) → (∀ p, x.question ≠ .progress p) →
      Relayed l kept t u kept' → Relayed l kept (x :: t) (x :: u) kept'

variable {l : Lagrangian α} {kept kept' : Kept α} {t u : Transcript α}

theorem Relayed.append {k : Kept α} {t' u' : Transcript α} (h : l.Relayed kept t u k)
    (h' : l.Relayed k t' u' kept') : l.Relayed kept (t ++ t') (u ++ u') kept' := by
  induction h with
  | nil => exact h'
  | fails hcheck _ ih => exact .fails hcheck (ih h')
  | evaluates hcheck _ ih => exact .evaluates hcheck (ih h')
  | withholds _ ih => exact .withholds (ih h')
  | passes hobjective hprogress _ ih => exact .passes hobjective hprogress (ih h')

/-- The run of an evaluation, which asks for the constraints and then for the objective. -/
theorem run_value (x : Vec α) (kept : Kept α) :
    (l.value (fun y => Dialogue.query (A := Answer α) (.objective y))
      (fun y => Dialogue.query (A := Answer α) (.constraints y)) x).run kept =
      Dialogue.query (A := Answer α) (.constraints x) >>= fun r =>
        match l.check r with
        | .error e => pure (undefined, kept.keep e)
        | .ok () => Dialogue.query (A := Answer α) (.objective x) >>= fun v =>
          pure (l.combine v r, kept) := by
  simp only [value, StateT.run_bind, StateT.run_monadLift, monadLift_self, bind_assoc, pure_bind]
  congr 1
  funext r
  cases l.check r with
  | ok u => rfl
  | error e => rfl

/-- One question, relayed. -/
theorem relayed_of_ends_relay {q : Question α} {a : Answer α q}
    (h : Dialogue.Ends ((l.relay q).run kept) u (a, kept')) :
    l.Relayed kept [⟨q, a⟩] u kept' := by
  have passed : ∀ {a : Answer α q}, (∀ y, q ≠ .objective y) → (∀ p, q ≠ .progress p) →
      Dialogue.Ends (Dialogue.query (A := Answer α) q >>= fun a => pure (a, kept)) u (a, kept') →
      l.Relayed kept [⟨q, a⟩] u kept' := by
    intro a hobjective hprogress h
    obtain ⟨a', u', rfl, h'⟩ := Dialogue.ends_ask_iff.mp h
    obtain ⟨rfl, heq⟩ := Dialogue.ends_done_iff.mp h'
    cases heq
    exact .passes hobjective hprogress .nil
  cases q with
  | objective x =>
    rw [relay, run_value, Dialogue.query_bind] at h
    obtain ⟨r, u', rfl, h'⟩ := Dialogue.ends_ask_iff.mp h
    cases hcheck : l.check r with
    | error e =>
      rw [hcheck] at h'
      obtain ⟨rfl, heq⟩ := Dialogue.ends_done_iff.mp h'
      cases heq
      exact .fails hcheck .nil
    | ok =>
      rw [hcheck] at h'
      obtain ⟨v, u'', rfl, h''⟩ := Dialogue.ends_ask_iff.mp h'
      obtain ⟨rfl, heq⟩ := Dialogue.ends_done_iff.mp h''
      cases heq
      exact .evaluates hcheck .nil
  | progress p =>
    obtain ⟨rfl, heq⟩ := Dialogue.ends_done_iff.mp h
    cases heq
    exact .withholds .nil
  | constraints x => exact passed nofun nofun h
  | gradient x step => exact passed nofun nofun h
  | update b dx dg => exact passed nofun nofun h
  | note n => exact passed nofun nofun h

/-- A dialogue, relayed. -/
theorem relayed_of_ends_run {β : Type} {d : Dialogue (Answer α) β} {b : β}
    (h : Dialogue.Ends ((d.run l.relay).run kept) u (b, kept')) :
    ∃ t, d.Ends t b ∧ l.Relayed kept t u kept' := by
  induction d generalizing kept u with
  | done c =>
    obtain ⟨rfl, heq⟩ := Dialogue.ends_done_iff.mp h
    cases heq
    exact ⟨[], by simp, .nil⟩
  | ask q next ih =>
    rw [Dialogue.run_ask, StateT.run_bind, Dialogue.ends_bind_iff] at h
    obtain ⟨u₁, ⟨a, k⟩, u₂, h₁, h₂, rfl⟩ := h
    obtain ⟨t, ht, hrelayed⟩ := ih a h₂
    exact ⟨⟨q, a⟩ :: t, .ask ht, (relayed_of_ends_relay h₁).append hrelayed⟩

/-- **A path of a run under a Lagrangian comes from a path of the run**, whose failure gives way to
the failure kept. -/
theorem ends_under {β : Type} {run : Run α β} {r : Except (Failure α) β}
    (h : Run.Ends (Run.under l run) u r) : ∃ t r' kept, Run.Ends run t r' ∧
      l.Relayed none t u kept ∧ r = r'.mapError kept.getD := by
  obtain ⟨u₁, ⟨r', kept⟩, u₂, h₁, h₂, rfl⟩ := Dialogue.ends_bind_iff.mp h
  obtain ⟨rfl, rfl⟩ := Dialogue.ends_done_iff.mp h₂
  obtain ⟨t, ht, hrelayed⟩ := relayed_of_ends_run h₁
  exact ⟨t, r', kept, ht, by simpa using hrelayed, rfl⟩

/-! ### What is kept -/

/-- **The failure kept is the first one**, unless there was one before. -/
theorem Relayed.kept_eq (h : l.Relayed kept t u kept') (ht : t.Unconstrained) :
    kept' = kept.or (u.firstFailure l.multipliers.ineq.length l.multipliers.eq.length) := by
  induction h with
  | nil => simp
  | fails hcheck _ ih =>
    obtain ⟨-, ht⟩ := List.forall_mem_cons.mp ht
    rw [ih ht, Transcript.firstFailure_constraints_cons,
      Residuals.failure?_eq_some_iff.mpr hcheck, Kept.keep, Option.or_assoc]
  | evaluates hcheck _ ih =>
    obtain ⟨-, ht⟩ := List.forall_mem_cons.mp ht
    rw [ih ht, Transcript.firstFailure_constraints_cons,
      Residuals.failure?_eq_none_iff.mpr hcheck, Option.none_or]
    rfl
  | withholds _ ih => exact ih (List.forall_mem_cons.mp ht).2
  | passes _ _ _ ih =>
    obtain ⟨hx, ht⟩ := List.forall_mem_cons.mp ht
    rw [ih ht, Transcript.firstFailure_cons hx]

/-- An exchange other than an evaluation or a message for the monitor is one with the problem. -/
theorem Relayed.mem (h : l.Relayed kept t u kept') {x : Dialogue.Exchange (Answer α)}
    (hx : x ∈ t) (hobjective : ∀ y, x.question ≠ .objective y)
    (hprogress : ∀ p, x.question ≠ .progress p) : x ∈ u := by
  induction h with
  | nil => exact hx
  | fails _ _ ih =>
    rcases List.mem_cons.mp hx with rfl | hx
    · exact absurd rfl (hobjective _)
    · exact List.mem_cons_of_mem _ (ih hx)
  | evaluates _ _ ih =>
    rcases List.mem_cons.mp hx with rfl | hx
    · exact absurd rfl (hobjective _)
    · exact List.mem_cons_of_mem _ (List.mem_cons_of_mem _ (ih hx))
  | withholds _ ih =>
    rcases List.mem_cons.mp hx with rfl | hx
    · exact absurd rfl (hprogress _)
    · exact ih hx
  | passes _ _ _ ih =>
    rcases List.mem_cons.mp hx with rfl | hx
    · exact List.mem_cons_self
    · exact List.mem_cons_of_mem _ (ih hx)

/-- A view that shows neither evaluations nor messages for the monitor shows the same of both. -/
theorem Relayed.filterMap_eq {β : Type} {view : Dialogue.Exchange (Answer α) → Option β}
    (h : l.Relayed kept t u kept') (hobjective : ∀ x v, view ⟨.objective x, v⟩ = none)
    (hconstraints : ∀ x r, view ⟨.constraints x, r⟩ = none)
    (hprogress : ∀ p a, view ⟨.progress p, a⟩ = none) : u.filterMap view = t.filterMap view := by
  induction h with
  | nil => rfl
  | fails _ _ ih =>
    rw [List.filterMap_cons_none (hobjective _ _), List.filterMap_cons_none (hconstraints _ _), ih]
  | evaluates _ _ ih =>
    rw [List.filterMap_cons_none (hobjective _ _), List.filterMap_cons_none (hconstraints _ _),
      List.filterMap_cons_none (hobjective _ _), ih]
  | withholds _ ih => rw [List.filterMap_cons_none (hprogress _ _), ih]
  | passes _ _ _ ih => rw [List.filterMap_cons, List.filterMap_cons, ih]

end Lagrangian

end Optimum

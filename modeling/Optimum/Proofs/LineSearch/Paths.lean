import Optimum.LineSearch
import Optimum.Proofs.Bracket.Passes
import Optimum.Proofs.Outcomes

/-!
# Paths of line searches

A line search asks for the objective at points of a line, first at those that Brent's search
chooses and then at the full step. A value that is not finite ends it at once.
-/

namespace Optimum

open Scalar

variable {α : Type}

/-- Notes as exchanges: each is written and has no answer. -/
def Note.written (ns : List (Note α)) : Transcript α := ns.map fun n => ⟨.note n, ()⟩

namespace Transcript

@[simp] theorem evaluations_written (ns : List (Note α)) : evaluations (Note.written ns) = [] := by
  simp [evaluations, Note.written, List.filterMap_map]

@[simp] theorem progress_written (ns : List (Note α)) : progress (Note.written ns) = [] := by
  simp [progress, Note.written, List.filterMap_map]

@[simp] theorem iterates_written (ns : List (Note α)) : iterates (Note.written ns) = [] := by
  simp [iterates, Note.written, List.filterMap_map]

@[simp] theorem evaluates_written (ns : List (Note α)) : Evaluates (Note.written ns) := by
  simp [Evaluates, Note.written]

end Transcript

namespace Run

variable [Scalar α]

/-- The exchanges of a search, whose questions are parameters of a line, as exchanges with the
objective. -/
def onLine (x s : Vec α) (u : Dialogue.Record (fun _ : α => α)) : Transcript α :=
  u.map fun e => ⟨.objective (x.along s e.question), e.answer⟩

@[simp] theorem evaluations_onLine (x s : Vec α) (u : Dialogue.Record (fun _ : α => α)) :
    (onLine x s u).evaluations = u.map fun e => (x.along s e.question, e.answer) := by
  rw [Transcript.evaluations, onLine, List.filterMap_map]
  exact congrFun List.filterMap_eq_map u

@[simp] theorem iterates_onLine (x s : Vec α) (u : Dialogue.Record (fun _ : α => α)) :
    (onLine x s u).iterates = [] := by
  simp [Transcript.iterates, onLine, List.filterMap_map]

@[simp] theorem progress_onLine (x s : Vec α) (u : Dialogue.Record (fun _ : α => α)) :
    (onLine x s u).progress = [] := by
  simp [Transcript.progress, onLine, List.filterMap_map]

@[simp] theorem evaluates_onLine (x s : Vec α) (u : Dialogue.Record (fun _ : α => α)) :
    (onLine x s u).Evaluates := by
  simp [Transcript.Evaluates, onLine]

theorem ends_alongLine_iff {x s : Vec α} {a : α} {t : Transcript α} {r : Except (Failure α) α} :
    Ends (alongLine x s a) t r ↔ ∃ v, t = [⟨.objective (x.along s a), v⟩] ∧
      r = if isFinite v then .ok v else .error (.nonFiniteValue .searchDirection) := by
  rw [alongLine, objective, ends_query_bind_iff]
  constructor
  · intro h
    obtain ⟨v, t', rfl, h⟩ := h
    refine ⟨v, ?_⟩
    split at h
    · obtain ⟨rfl, rfl⟩ := ends_pure_iff.mp h
      simp [*]
    · obtain ⟨rfl, rfl⟩ := ends_throw_iff.mp h
      simp [*]
  · intro h
    obtain ⟨v, rfl, rfl⟩ := h
    refine ⟨v, [], rfl, ?_⟩
    split
    · exact ends_pure_iff.mpr ⟨rfl, rfl⟩
    · exact ends_throw_iff.mpr ⟨rfl, rfl⟩

/-- A search whose values are all finite gives its result. -/
theorem ends_search_ok_iff {β : Type} {d : Search α β} {x s : Vec α} {t : Transcript α} {b : β} :
    Ends (d.run (alongLine x s)) t (.ok b) ↔
      ∃ u, d.Ends u b ∧ (∀ e ∈ u, isFinite e.answer = true) ∧ t = onLine x s u := by
  induction d generalizing t with
  | done c =>
    rw [Dialogue.run_done, ends_pure_iff]
    constructor
    · intro h
      obtain ⟨rfl, h⟩ := h
      cases h
      exact ⟨[], by simp, by simp, rfl⟩
    · intro h
      obtain ⟨u, hu, -, rfl⟩ := h
      obtain ⟨rfl, rfl⟩ := Dialogue.ends_done_iff.mp hu
      exact ⟨rfl, rfl⟩
  | ask a next ih =>
    rw [Dialogue.run_ask, ends_bind_ok_iff]
    constructor
    · intro h
      obtain ⟨t₁, v, t₂, h₁, h₂, rfl⟩ := h
      obtain ⟨w, rfl, hw⟩ := ends_alongLine_iff.mp h₁
      split at hw
      next hfin =>
        cases hw
        obtain ⟨u, hu, hall, rfl⟩ := (ih v).mp h₂
        exact ⟨⟨a, v⟩ :: u, .ask hu, List.forall_mem_cons.mpr ⟨hfin, hall⟩, rfl⟩
      next => cases hw
    · intro h
      obtain ⟨u, hu, hall, rfl⟩ := h
      obtain ⟨v, u', rfl, hu'⟩ := Dialogue.ends_ask_iff.mp hu
      obtain ⟨hfin, hall⟩ := List.forall_mem_cons.mp hall
      exact ⟨_, v, _, ends_alongLine_iff.mpr ⟨v, rfl, (if_pos hfin).symm⟩,
        (ih v).mpr ⟨u', hu', hall, rfl⟩, rfl⟩

/-- A search fails at the first value that is not finite, and asks for no other. -/
theorem ends_search_error_iff {β : Type} {d : Search α β} {x s : Vec α} {t : Transcript α}
    {e : Failure α} :
    Ends (d.run (alongLine x s)) t (.error e) ↔
      ∃ u a next v, d.Reaches u (.ask a next) ∧ (∀ e ∈ u, isFinite e.answer = true) ∧
        isFinite v = false ∧ e = .nonFiniteValue .searchDirection ∧
        t = onLine x s u ++ [⟨.objective (x.along s a), v⟩] := by
  induction d generalizing t with
  | done c =>
    rw [Dialogue.run_done, ends_pure_iff]
    constructor
    · intro h
      obtain ⟨-, h⟩ := h
      cases h
    · intro h
      obtain ⟨u, a, next, v, h, -⟩ := h
      cases h
  | ask a next ih =>
    rw [Dialogue.run_ask, ends_bind_error_iff]
    constructor
    · intro h
      rcases h with h | ⟨t₁, v, t₂, h₁, h₂, rfl⟩
      · obtain ⟨v, rfl, hv⟩ := ends_alongLine_iff.mp h
        split at hv
        next => cases hv
        next hfin =>
          cases hv
          exact ⟨[], a, next, v, .refl _, by simp, by simpa using hfin, rfl, rfl⟩
      · obtain ⟨w, rfl, hw⟩ := ends_alongLine_iff.mp h₁
        split at hw
        next hfin =>
          cases hw
          obtain ⟨u, a', next', v', hu, hall, hv', rfl, rfl⟩ := (ih v).mp h₂
          exact ⟨⟨a, v⟩ :: u, a', next', v', .ask hu, List.forall_mem_cons.mpr ⟨hfin, hall⟩, hv',
            rfl, rfl⟩
        next => cases hw
    · intro h
      obtain ⟨u, a', next', v', hu, hall, hv', rfl, rfl⟩ := h
      cases hu with
      | refl =>
        left
        exact ends_alongLine_iff.mpr ⟨v', rfl, by simp [hv']⟩
      | @ask _ _ v u' _ hu' =>
        right
        obtain ⟨hfin, hall⟩ := List.forall_mem_cons.mp hall
        exact ⟨_, v, _, ends_alongLine_iff.mpr ⟨v, rfl, (if_pos hfin).symm⟩,
          (ih v).mpr ⟨u', a', next', v', hu', hall, hv', rfl, rfl⟩, rfl⟩

end Run

/-- What a line search notes down when it ends. -/
def Step.notes (step : Step α) : List (Note α) :=
  if step.bracketed then [] else [.notBracketed step.alpha]

namespace Run

variable [Scalar α] {opt : Options α} {x s : Vec α} {f₀ : α} {t : Transcript α}

/-- The end of a line search, after the search inside the interval. -/
theorem ends_choose_iff {inside : Sample α} {v : α} {r : Except (Failure α) (Step α)} :
    Ends (do
      unless (Step.choose inside f₀ v).bracketed do
        note (.notBracketed (Step.choose inside f₀ v).alpha)
      pure (Step.choose inside f₀ v)) t r ↔
      t = Note.written (Step.choose inside f₀ v).notes ∧ r = .ok (Step.choose inside f₀ v) := by
  cases h : (Step.choose inside f₀ v).bracketed
  · simp only [Bool.false_eq_true, if_false, ends_note_bind_iff, ends_pure_iff, Step.notes, h]
    constructor
    · intro h
      obtain ⟨t', rfl, rfl, rfl⟩ := h
      exact ⟨rfl, rfl⟩
    · intro h
      obtain ⟨rfl, rfl⟩ := h
      exact ⟨[], rfl, rfl, rfl⟩
  · simp only [if_true, ends_pure_iff, Step.notes, h]
    exact Iff.rfl

/-- A line search that succeeds. -/
theorem ends_lineSearch_ok_iff {step : Step α} :
    Ends (lineSearch opt x s f₀) t (.ok step) ↔
      ∃ u found v, (boundedBrent 0 1 opt.lineTol (opt.lineMaxFev - 1)).Ends u found ∧
        (∀ e ∈ u, isFinite e.answer = true) ∧ isFinite v = true ∧
        step = Step.choose found.best f₀ v ∧
        t = onLine x s u ++ Note.written found.notes ++ [⟨.objective (x.along s 1), v⟩] ++
          Note.written step.notes := by
  rw [lineSearch, ends_bind_ok_iff]
  constructor
  · intro h
    obtain ⟨t₁, found, t₂, h₁, h₂, rfl⟩ := h
    obtain ⟨u, hu, hall, rfl⟩ := ends_search_ok_iff.mp h₁
    obtain ⟨t₃, ⟨⟩, t₄, h₃, h₄, rfl⟩ := ends_bind_ok_iff.mp h₂
    obtain ⟨rfl, -⟩ := ends_forM_note_iff.mp h₃
    obtain ⟨t₅, v, t₆, h₅, h₆, rfl⟩ := ends_bind_ok_iff.mp h₄
    obtain ⟨w, rfl, hw⟩ := ends_alongLine_iff.mp h₅
    obtain ⟨rfl, hstep⟩ := ends_choose_iff.mp h₆
    split at hw
    next hfin =>
      cases hw
      cases hstep
      exact ⟨u, found, v, hu, hall, hfin, rfl, by simp [Note.written]⟩
    next => cases hw
  · intro h
    obtain ⟨u, found, v, hu, hall, hfin, rfl, rfl⟩ := h
    rw [List.append_assoc, List.append_assoc]
    refine ⟨_, found, _, ends_search_ok_iff.mpr ⟨u, hu, hall, rfl⟩, ?_, rfl⟩
    refine ends_bind_ok_iff.mpr ⟨_, (), _, ends_forM_note_iff.mpr ⟨rfl, rfl⟩, ?_, rfl⟩
    refine ends_bind_ok_iff.mpr ⟨_, v, _, ends_alongLine_iff.mpr ⟨v, rfl, (if_pos hfin).symm⟩, ?_,
      rfl⟩
    exact ends_choose_iff.mpr ⟨rfl, rfl⟩

/-- A line search fails inside the interval or at the full step. -/
theorem ends_lineSearch_error_iff {e : Failure α} :
    Ends (lineSearch opt x s f₀) t (.error e) ↔
      Ends ((boundedBrent 0 1 opt.lineTol (opt.lineMaxFev - 1)).run (alongLine x s)) t (.error e) ∨
        ∃ u found v, (boundedBrent 0 1 opt.lineTol (opt.lineMaxFev - 1)).Ends u found ∧
          (∀ e ∈ u, isFinite e.answer = true) ∧ isFinite v = false ∧
          e = .nonFiniteValue .searchDirection ∧
          t = onLine x s u ++ Note.written found.notes ++ [⟨.objective (x.along s 1), v⟩] := by
  rw [lineSearch, ends_bind_error_iff]
  constructor
  · intro h
    rcases h with h | ⟨t₁, found, t₂, h₁, h₂, rfl⟩
    · exact Or.inl h
    right
    obtain ⟨u, hu, hall, rfl⟩ := ends_search_ok_iff.mp h₁
    rcases ends_bind_error_iff.mp h₂ with h₃ | ⟨t₃, ⟨⟩, t₄, h₃, h₄, rfl⟩
    · obtain ⟨-, h⟩ := ends_forM_note_iff.mp h₃
      cases h
    obtain ⟨rfl, -⟩ := ends_forM_note_iff.mp h₃
    rcases ends_bind_error_iff.mp h₄ with h₅ | ⟨t₅, v, t₆, h₅, h₆, rfl⟩
    · obtain ⟨v, rfl, hv⟩ := ends_alongLine_iff.mp h₅
      split at hv
      next => cases hv
      next hfin =>
        cases hv
        exact ⟨u, found, v, hu, hall, by simpa using hfin, rfl, by simp [Note.written]⟩
    · obtain ⟨-, h⟩ := ends_choose_iff.mp h₆
      cases h
  · intro h
    rcases h with h | ⟨u, found, v, hu, hall, hv, rfl, rfl⟩
    · exact Or.inl h
    right
    rw [List.append_assoc]
    refine ⟨_, found, _, ends_search_ok_iff.mpr ⟨u, hu, hall, rfl⟩, ?_, rfl⟩
    refine ends_bind_error_iff.mpr
      (.inr ⟨_, (), _, ends_forM_note_iff.mpr ⟨rfl, rfl⟩, ?_, rfl⟩)
    exact ends_bind_error_iff.mpr (.inl (ends_alongLine_iff.mpr ⟨v, rfl, by simp [hv]⟩))

/-- A line search keeps to its budget; one that succeeds has looked inside the interval and at the
full step. -/
theorem evaluations_of_ends_lineSearch {x s : Vec α} {f₀ : α} {r : Except (Failure α) (Step α)}
    (hfev : 2 ≤ opt.lineMaxFev) (hend : Ends (lineSearch opt x s f₀) t r) :
    t.evaluations.length ≤ opt.lineMaxFev ∧ (r.isOk → 2 ≤ t.evaluations.length) := by
  have hbound := Search.asksAtMost_boundedBrent (0 : α) 1 opt.lineTol (opt.lineMaxFev - 1)
  have hfull : ∀ (found : Found α) (u : Dialogue.Record fun _ : α => α) v,
      (onLine x s u ++ Note.written found.notes ++
        [⟨.objective (x.along s 1), v⟩] : Transcript α).evaluations.length = u.length + 1 := by
    intro found u v
    rw [Transcript.evaluations_append, Transcript.evaluations_append, evaluations_onLine,
      Transcript.evaluations_written, List.append_nil, List.length_append, List.length_map]
    rfl
  cases r with
  | ok step =>
    obtain ⟨u, found, v, hu, -, -, -, rfl⟩ := ends_lineSearch_ok_iff.mp hend
    have hle := hbound.length_le hu
    have hpos : 0 < u.length := by
      obtain ⟨f, u', rfl, -⟩ := Dialogue.ends_ask_iff.mp hu
      exact Nat.succ_pos _
    rw [Transcript.evaluations_append, Transcript.evaluations_written, List.append_nil, hfull]
    exact ⟨by omega, fun _ => by omega⟩
  | error e =>
    refine ⟨?_, nofun⟩
    rcases ends_lineSearch_error_iff.mp hend with h | ⟨u, found, v, hu, -, -, -, rfl⟩
    · obtain ⟨u, a, next, v, hu, -, -, -, rfl⟩ := ends_search_error_iff.mp h
      have hlt := hbound.length_lt hu
      rw [Transcript.evaluations_append, evaluations_onLine, List.length_append, List.length_map]
      change u.length + 1 ≤ _
      omega
    · have hle := hbound.length_le hu
      rw [hfull]
      omega

/-- A line search asks for the objective only. -/
theorem views_of_ends_lineSearch {r : Except (Failure α) (Step α)}
    (h : Ends (lineSearch opt x s f₀) t r) :
    t.iterates = [] ∧ t.progress = [] ∧ t.Evaluates := by
  have hnil : Transcript.Evaluates ([] : Transcript α) := by simp [Transcript.Evaluates]
  cases r with
  | ok step =>
    obtain ⟨u, found, v, -, -, -, -, rfl⟩ := ends_lineSearch_ok_iff.mp h
    simp
  | error e =>
    rcases ends_lineSearch_error_iff.mp h with h | ⟨u, found, v, -, -, -, -, rfl⟩
    · obtain ⟨u, a, next, v, -, -, -, -, rfl⟩ := ends_search_error_iff.mp h
      simp [hnil]
    · simp [hnil]

end Run

end Optimum

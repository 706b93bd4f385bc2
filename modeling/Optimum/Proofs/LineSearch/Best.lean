import Optimum.Proofs.Bracket.Best
import Optimum.Proofs.LineSearch.Paths

/-!
# The best step of a line search

A line search knows the value at no step, the values of its trials inside the interval, and the value at
the full step. It ends with the least of them. The inside wins a tie with either end, so an end is taken
only if it is better than all trials; between the ends no step wins a tie. As in the search inside the
interval, only that numbers are totally ordered is used.

## What is proved

* `Step.isBest_choose`: the choice between the best trial and the two ends gives the best step.
* `Run.bestKnown_of_recordOn`: what a line search returns, on any objective that may keep a state.
-/

namespace Optimum

open Scalar

variable {α : Type} [Scalar α]

/-! ### Steps -/

namespace Step

/-- A step is the best of what is known: the value `f₀` at no step, the trials inside the interval, and
the value `f₁` at the full step. -/
structure IsBest (f₀ : α) (trials : List (Sample α)) (f₁ : α) (step : Step α) : Prop where
  /-- Its value is known. -/
  known : step.f ∈ f₀ :: (trials.map (·.f) ++ [f₁])
  /-- No known value is less. -/
  least : ∀ v ∈ f₀ :: (trials.map (·.f) ++ [f₁]), step.f ≤ v
  /-- It is no step if that is better than all trials and no worse than the full step. -/
  stays : (∀ p ∈ trials, f₀ < p.f) → ¬ f₁ < f₀ → step = ⟨0, f₀, false⟩
  /-- It is the full step if that is better than all else. -/
  full : f₁ < f₀ → (∀ p ∈ trials, f₁ < p.f) → step = ⟨1, f₁, false⟩
  /-- Otherwise it is the last of the trials with the least value. -/
  inside : ¬ ((∀ p ∈ trials, f₀ < p.f) ∧ ¬ f₁ < f₀) → ¬ (f₁ < f₀ ∧ ∀ p ∈ trials, f₁ < p.f) →
    step.bracketed = true ∧ (⟨step.alpha, step.f⟩ : Sample α).IsLatestMin trials

variable [OrdersNumbers α] {inside : Sample α} {f₀ f₁ : α} {trials : List (Sample α)}

/-- Which candidate a step is, and how it compares with the other two. -/
theorem choose_compares (hinside : IsNumber inside.f) (hf₀ : IsNumber f₀) (hf₁ : IsNumber f₁) :
    (choose inside f₀ f₁ = ⟨inside.x, inside.f, true⟩ ∧ inside.f ≤ f₀ ∧ inside.f ≤ f₁) ∨
      (choose inside f₀ f₁ = ⟨0, f₀, false⟩ ∧ f₀ < inside.f ∧ f₀ ≤ f₁) ∨
      (choose inside f₀ f₁ = ⟨1, f₁, false⟩ ∧ f₁ < inside.f ∧ f₁ < f₀) := by
  unfold choose
  simp only
  by_cases h₀ : f₀ < inside.f
  · rw [if_pos h₀]
    by_cases h₁ : f₁ < f₀
    · rw [if_pos h₁]
      exact Or.inr (Or.inr ⟨rfl, OrdersNumbers.lt_of_lt_of_le h₁ (OrdersNumbers.le_of_lt h₀), h₁⟩)
    · rw [if_neg h₁]
      exact Or.inr (Or.inl ⟨rfl, h₀, OrdersNumbers.le_of_not_lt hf₁ hf₀ h₁⟩)
  · have hle : inside.f ≤ f₀ := OrdersNumbers.le_of_not_lt hf₀ hinside h₀
    rw [if_neg h₀]
    by_cases h₁ : f₁ < inside.f
    · rw [if_pos h₁]
      exact Or.inr (Or.inr ⟨rfl, h₁, OrdersNumbers.lt_of_lt_of_le h₁ hle⟩)
    · rw [if_neg h₁]
      exact Or.inl ⟨rfl, hle, OrdersNumbers.le_of_not_lt hf₁ hinside h₁⟩

/-- **The choice between the best trial and the ends gives the best step.** -/
theorem isBest_choose (h : inside.IsLatestMin trials) (htrials : ∀ p ∈ trials, IsNumber p.f)
    (hf₀ : IsNumber f₀) (hf₁ : IsNumber f₁) : (choose inside f₀ f₁).IsBest f₀ trials f₁ := by
  have hall : ∀ {v : α}, v ≤ f₀ → v ≤ inside.f → v ≤ f₁ →
      ∀ w ∈ f₀ :: (trials.map (·.f) ++ [f₁]), v ≤ w := fun hv₀ hv hv₁ =>
    List.forall_mem_cons.mpr ⟨hv₀, List.forall_mem_append.mpr
      ⟨List.forall_mem_map.mpr fun p hp => OrdersNumbers.le_trans hv (h.1 p hp),
        List.forall_mem_singleton.mpr hv₁⟩⟩
  rcases choose_compares (htrials _ h.mem) hf₀ hf₁ with
    ⟨heq, h₀, h₁⟩ | ⟨heq, h₀, h₁⟩ | ⟨heq, h₁, h₀⟩ <;> rw [heq]
  · refine ⟨?_, hall h₀ (OrdersNumbers.le_self (htrials _ h.mem)) h₁, fun hstay _ => ?_,
      fun _ hfull => ?_, fun _ _ => ⟨rfl, h⟩⟩
    · exact List.mem_cons_of_mem _ (List.mem_append_left _ (List.mem_map_of_mem h.mem))
    · exact absurd (hstay _ h.mem) (OrdersNumbers.not_lt_of_le h₀)
    · exact absurd (hfull _ h.mem) (OrdersNumbers.not_lt_of_le h₁)
  · have hbelow : ∀ p ∈ trials, f₀ < p.f := h.forall_lt h₀
    have hnot : ¬ f₁ < f₀ := OrdersNumbers.not_lt_of_le h₁
    exact ⟨List.mem_cons_self, hall (OrdersNumbers.le_self hf₀) (OrdersNumbers.le_of_lt h₀) h₁,
      fun _ _ => rfl, fun hlt => absurd hlt hnot, fun hstay => absurd ⟨hbelow, hnot⟩ hstay⟩
  · have hbelow : ∀ p ∈ trials, f₁ < p.f := h.forall_lt h₁
    refine ⟨?_, hall (OrdersNumbers.le_of_lt h₀) (OrdersNumbers.le_of_lt h₁)
      (OrdersNumbers.le_self hf₁), fun _ hnot => absurd h₀ hnot, fun _ _ => rfl,
      fun _ hfull => absurd ⟨h₀, hbelow⟩ hfull⟩
    exact List.mem_cons_of_mem _ (List.mem_append_right _ List.mem_cons_self)

end Step

namespace Run

/-! ### Evaluations -/

section Evaluations

variable {opt : Options α} {x s : Vec α} {f₀ : α} {t : Transcript α}

/-- A line search that succeeds has evaluated the trials of a search inside the interval, and then the
full step. -/
theorem evaluations_of_ends_lineSearch_ok {step : Step α}
    (h : Ends (lineSearch opt x s f₀) t (.ok step)) :
    ∃ u found f₁, (boundedBrent 0 1 opt.lineTol (opt.lineMaxFev - 1)).Ends u found ∧
      step = Step.choose found.best f₀ f₁ ∧
      t.evaluations = ((Search.samples u).map fun p => (x.along s p.x, p.f)) ++ [(x.along s 1, f₁)] ∧
      ∀ p ∈ t.evaluations, isFinite p.2 = true := by
  obtain ⟨u, found, f₁, hu, hfinite, hfull, rfl, rfl⟩ := ends_lineSearch_ok_iff.mp h
  have hevals : Transcript.evaluations (onLine x s u ++ Note.written found.notes ++
      [⟨.objective (x.along s 1), f₁⟩] ++ Note.written (Step.choose found.best f₀ f₁).notes) =
      ((Search.samples u).map fun p => (x.along s p.x, p.f)) ++ [(x.along s 1, f₁)] := by
    simp only [Transcript.evaluations_append, evaluations_onLine, Transcript.evaluations_written,
      List.append_nil, Search.samples, List.map_map]
    rfl
  refine ⟨u, found, f₁, hu, rfl, hevals, ?_⟩
  rw [hevals, Search.samples, List.map_map]
  exact List.forall_mem_append.mpr
    ⟨List.forall_mem_map.mpr hfinite, List.forall_mem_singleton.mpr hfull⟩

/-- One that fails has just evaluated its first value that is not finite. -/
theorem evaluations_of_ends_lineSearch_error {e : Failure α}
    (h : Ends (lineSearch opt x s f₀) t (.error e)) :
    e = .nonFiniteValue .searchDirection ∧ ∃ earlier p, t.evaluations = earlier ++ [p] ∧
      (∀ q ∈ earlier, isFinite q.2 = true) ∧ isFinite p.2 = false := by
  have hline : ∀ {u : Dialogue.Record (fun _ : α => α)}, (∀ e ∈ u, isFinite e.answer = true) →
      ∀ q ∈ (onLine x s u).evaluations, isFinite q.2 = true := fun hu => by
    rw [evaluations_onLine]
    exact List.forall_mem_map.mpr hu
  rcases ends_lineSearch_error_iff.mp h with h | ⟨u, found, v, -, hfinite, hv, rfl, rfl⟩
  · obtain ⟨u, a, next, v, -, hfinite, hv, rfl, rfl⟩ := ends_search_error_iff.mp h
    exact ⟨rfl, _, (x.along s a, v), Transcript.evaluations_append _ _, hline hfinite, hv⟩
  · refine ⟨rfl, _, (x.along s 1, v), ?_, hline hfinite, hv⟩
    rw [Transcript.evaluations_append, Transcript.evaluations_append,
      Transcript.evaluations_written, List.append_nil]
    rfl

end Evaluations

/-! ### Whole line searches -/

variable [OrdersNumbers α]

/-- **A line search returns the best step that it knows**, whatever the objective, also if it keeps a
state. A value that is not finite is the last one, and the line search fails with it. Otherwise the
last value is that of the full step, the others are those of the search inside the interval, and the
step is the best of them and of no step. -/
theorem bestKnown_of_recordOn {σ : Type} (problem : Callbacks (StateM σ) α) {opt : Options α}
    (hfev : 2 ≤ opt.lineMaxFev) (x s : Vec α) {f₀ : α} (hf₀ : IsNumber f₀) (st : σ) :
    let out := (((lineSearch opt x s f₀).recordOn problem).run st).1
    (∀ before p after, out.2.evaluations = before ++ p :: after → isFinite p.2 = false →
      after = [] ∧ out.1 = .error (.nonFiniteValue .searchDirection)) ∧
    ((∀ p ∈ out.2.evaluations, isFinite p.2 = true) →
      2 ≤ out.2.evaluations.length ∧ out.2.evaluations.length ≤ opt.lineMaxFev ∧
      ∃ u found f₁ step, (boundedBrent 0 1 opt.lineTol (opt.lineMaxFev - 1)).Ends u found ∧
        out.2.evaluations =
          ((Search.samples u).map fun p => (x.along s p.x, p.f)) ++ [(x.along s 1, f₁)] ∧
        out.1 = .ok step ∧ step.IsBest f₀ (Search.samples u) f₁) := by
  intro out
  have hends : Ends (lineSearch opt x s f₀) out.2 out.1 := ends_recordOn _ st
  obtain ⟨hle, hge⟩ := evaluations_of_ends_lineSearch hfev hends
  cases hout : out.1 with
  | error e =>
    rw [hout] at hends
    obtain ⟨rfl, earlier, p, hevals, hearlier, hp⟩ := evaluations_of_ends_lineSearch_error hends
    rw [hevals]
    refine ⟨fun before q after heq hq => ?_, fun hall => ?_⟩
    · obtain ⟨rfl, -⟩ := eq_last_of_append heq hearlier (Bool.eq_false_iff.mp hq)
      exact ⟨rfl, rfl⟩
    · exact absurd (hall p (List.mem_append_right _ List.mem_cons_self)) (Bool.eq_false_iff.mp hp)
  | ok step =>
    rw [hout] at hends hge
    obtain ⟨u, found, f₁, hu, rfl, hevals, hfinite⟩ := evaluations_of_ends_lineSearch_ok hends
    refine ⟨fun before q after heq hq => ?_, fun _ => ⟨hge rfl, hle, u, found, f₁, _, hu, hevals,
      rfl, ?_⟩⟩
    · have hmem : q ∈ out.2.evaluations := heq ▸ List.mem_append_right _ List.mem_cons_self
      exact absurd (hfinite q hmem) (Bool.eq_false_iff.mp hq)
    · rw [hevals] at hfinite
      obtain ⟨htrials, hfull⟩ := List.forall_mem_append.mp hfinite
      have hnumbers : ∀ p ∈ Search.samples u, IsNumber p.f := fun p hp =>
        OrdersNumbers.isNumber_of_isFinite (htrials _ (List.mem_map_of_mem hp))
      exact Step.isBest_choose (Search.isLatestMin_of_ends_boundedBrent hu hnumbers) hnumbers hf₀
        (OrdersNumbers.isNumber_of_isFinite (hfull _ List.mem_cons_self))

/-- The square of the distance from a quarter, one less at every other call. -/
def flickeringParabola : Callbacks (StateM ℕ) Float where
  objective x calls := (Vec.dot (x.map (· - 0.25)) (x.map (· - 0.25)) - (calls % 2).toFloat, calls + 1)
  constraints _ := pure ⟨[], []⟩
  gradient x h := pure (.forward x h)
  update b _ _ := pure (.ok b.cleared)
  progress _ := pure ()
  note _ := pure ()

/-- A line search on it, from a value that its trials improve on. -/
theorem bestKnown_of_recordOn_flickeringParabola :
    let opt : Options Float := { Options.default with lineMaxFev := 5, lineTol := 0 }
    let out := (((lineSearch opt [0] [1] 0.0625).recordOn flickeringParabola).run 0).1
    2 ≤ opt.lineMaxFev ∧ IsNumber (0.0625 : Float) ∧ out.2.evaluations.length = 5 ∧
      ∃ u f₁ step, out.1 = .ok step ∧ step.IsBest 0.0625 (Search.samples u) f₁ := by
  intro opt out
  have hfev : 2 ≤ opt.lineMaxFev := by decide
  have hf₀ : IsNumber (0.0625 : Float) := by decide
  have hrun : (∀ p ∈ out.2.evaluations, isFinite p.2 = true) ∧ out.2.evaluations.length = 5 := by
    decide +kernel
  obtain ⟨-, hbest⟩ := bestKnown_of_recordOn flickeringParabola hfev [0] [1] hf₀ 0
  obtain ⟨-, -, u, found, f₁, step, -, -, hstep, hbest⟩ := hbest hrun.1
  exact ⟨hfev, hf₀, hrun.2, u, f₁, step, hstep, hbest⟩

end Run

end Optimum

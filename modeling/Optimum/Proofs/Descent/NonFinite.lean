import Optimum.Proofs.Descent.Methods
import Optimum.Proofs.Difference

/-!
# Descents that meet a value that is not finite

A run of a method that gives a result has met no objective value that is not finite. At an iterate
and along a line such a value ends the run at once; among the values that an estimate is made of, it
is exposed by the estimate, which is then refused.

## What is proved

* `Method.allFinite_of_ends`: a run that gives a result has met finite values only.
-/

namespace Optimum

open Scalar

variable {α : Type} [Scalar α]

namespace Transcript

/-- All values of the objective are finite. -/
def AllFinite (t : Transcript α) : Prop := ∀ p ∈ t.evaluations, isFinite p.2 = true

@[simp] theorem allFinite_append_iff {t u : Transcript α} :
    AllFinite (t ++ u) ↔ AllFinite t ∧ AllFinite u := by
  simp only [AllFinite, evaluations_append, List.mem_append, or_imp, forall_and]

@[simp] theorem allFinite_objective_cons_iff {x : Vec α} {v : α} {t : Transcript α} :
    AllFinite (⟨.objective x, v⟩ :: t) ↔ isFinite v = true ∧ AllFinite t :=
  List.forall_mem_cons

theorem allFinite_of_evaluations_eq_nil {t : Transcript α} (h : t.evaluations = []) :
    AllFinite t := by
  intro p hp
  rw [h] at hp
  cases hp

/-- The estimates of gradients expose all values of the objective that they are made of. -/
def Exposes (t : Transcript α) : Prop := ∀ x h plan, ⟨.gradient x h, plan⟩ ∈ t → Plan.Exposes plan

theorem exposes_append_iff {t u : Transcript α} :
    Exposes (t ++ u) ↔ Exposes t ∧ Exposes u := by
  simp only [Exposes, List.mem_append, or_imp, forall_and]

end Transcript

namespace Run

variable {x s : Vec α} {f₀ h : α} {opt : Options α} {t : Transcript α}

/-! ### Evaluation -/

theorem iterates_of_ends_finiteGradient {r : Except (Failure α) (Vec α)}
    (hend : Ends (finiteGradient x h) t r) : t.iterates = [x] := by
  obtain ⟨plan, u, g, -, rfl, -⟩ := ends_finiteGradient_iff.mp hend
  exact congrArg (x :: ·) (Transcript.iterates_ofPlan u)

theorem allFinite_of_ends_finiteGradient {g : Vec α} (hend : Ends (finiteGradient x h) t (.ok g))
    (hexp : t.Exposes) : t.AllFinite := by
  obtain ⟨plan, u, g', hu, rfl, hcheck⟩ := ends_finiteGradient_iff.mp hend
  obtain ⟨-, hfin, rfl⟩ := checkGradient_eq_ok_iff.mp hcheck.symm
  have hplan := hexp x h plan List.mem_cons_self u g hu hfin
  intro p hp
  change p ∈ Transcript.evaluations (ofPlan u) at hp
  rw [Transcript.evaluations_ofPlan] at hp
  obtain ⟨e, he, rfl⟩ := List.mem_map.mp hp
  exact hplan e he

theorem allFinite_of_ends_iterate {it : Iterate α} (hend : Ends (iterate x h) t (.ok it))
    (hexp : t.Exposes) : t.AllFinite := by
  obtain ⟨v, t', g, hv, hg, rfl, -⟩ := ends_iterate_ok_iff.mp hend
  have hexp' : t'.Exposes := fun y step plan hy => hexp y step plan (List.mem_cons_of_mem _ hy)
  exact Transcript.allFinite_objective_cons_iff.mpr
    ⟨hv, allFinite_of_ends_finiteGradient hg hexp'⟩

theorem allFinite_of_ends_lineSearch {step : Step α}
    (hend : Ends (lineSearch opt x s f₀) t (.ok step)) : t.AllFinite := by
  obtain ⟨u, found, v, -, hu, hv, -, rfl⟩ := ends_lineSearch_ok_iff.mp hend
  have hline : (onLine x s u).AllFinite := by
    intro p hp
    rw [evaluations_onLine] at hp
    obtain ⟨e, he, rfl⟩ := List.mem_map.mp hp
    exact hu e he
  simp only [Transcript.allFinite_append_iff]
  exact ⟨⟨⟨hline, Transcript.allFinite_of_evaluations_eq_nil (Transcript.evaluations_written _)⟩,
    Transcript.allFinite_objective_cons_iff.mpr ⟨hv, nofun⟩⟩,
    Transcript.allFinite_of_evaluations_eq_nil (Transcript.evaluations_written _)⟩

/-! ### Whole runs -/

/-- An iteration that is complete has met finite values only. -/
theorem allFinite_of_iterates {S : Type} {strategy : Strategy α S} {σ : Stage α S}
    {i : Iteration α S} (h : Iterates strategy opt σ t (.ok i)) (hexp : t.Exposes) :
    t.AllFinite := by
  obtain ⟨t₁, t₂, step, next, h₁, h₂, rfl, rfl⟩ := ends_iteration_ok_iff.mp h
  simp only [Transcript.exposes_append_iff] at hexp
  simp only [Transcript.allFinite_append_iff]
  exact ⟨⟨allFinite_of_ends_lineSearch h₁, allFinite_of_ends_iterate h₂ hexp.1.2⟩,
    Transcript.allFinite_of_evaluations_eq_nil rfl⟩

theorem Descends.allFinite {method : Method} {n left : Nat} {σ : Stage α (method.Memory α)}
    {stages : List (Stage α (method.Memory α))} {r : Except (Failure α) (Solution α)}
    (h : Descends (method.strategy n) opt left σ t stages r) (hexp : t.Exposes)
    (hr : r.isOk = true) : t.AllFinite := by
  induction h with
  | fails _ => cases hr
  | stops h₁ _ =>
    rw [Transcript.exposes_append_iff] at hexp
    exact Transcript.allFinite_append_iff.mpr ⟨allFinite_of_iterates h₁ hexp.1,
      Transcript.allFinite_of_evaluations_eq_nil (Transcript.evaluations_written _)⟩
  | refuses _ _ _ => cases hr
  | goesOn h₁ _ h₂ _ ih =>
    simp only [Transcript.exposes_append_iff] at hexp
    simp only [Transcript.allFinite_append_iff]
    exact ⟨⟨allFinite_of_iterates h₁ hexp.1.1,
      Transcript.allFinite_of_evaluations_eq_nil (Method.aside_absorb h₂).evaluations⟩,
      ih hexp.2 hr⟩

end Run

/-- **A run of a method that gives a result has met finite values of the objective only**, if its
estimates expose the values that they are made of. -/
theorem Method.allFinite_of_ends {method : Method} {opt : Options α} {x₀ : Vec α}
    {t : Transcript α} {sol : Solution α} (hend : Run.Ends (method.solve opt x₀) t (.ok sol))
    (hexp : t.Exposes) : t.AllFinite := by
  rw [Method.solve_eq, Run.ends_minimize_iff] at hend
  obtain ⟨stages, h⟩ := hend
  cases h with
  | descends _ _ h₁ h₂ =>
    rw [Transcript.exposes_append_iff] at hexp
    exact Transcript.allFinite_append_iff.mpr
      ⟨Run.allFinite_of_ends_iterate h₁ hexp.1, h₂.allFinite hexp.2 rfl⟩

/-! ### Quasi-Newton runs -/

end Optimum

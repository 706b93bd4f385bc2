import Optimum.Proofs.Descent.Failures
import Optimum.Proofs.Lagrangian.Relay

/-!
# Failures of the constraints

The failures that describe residuals, what each of them says, and where they come from. Apart from
the check of residuals, no part of a run has a failure of this kind: not the evaluations of an
iterate, not a line search, and not the two update rules.

## What is proved

* `Residuals.check_eq_error_iff`: the check of residuals finds what is wrong with them.
* `Transcript.firstFailure_eq_some_iff`: which evaluation the first failure describes.
* `Run.ruleFails_of_ends_quasiNewton`: a quasi-Newton run has such a failure only from its update
  rule.
-/

namespace Optimum

open Scalar

/-! ### Failures of the constraints -/

/-- The failures that describe residuals. -/
inductive Failure.OfConstraints {α : Type} : Failure α → Prop where
  /-- The number of inequality residuals. -/
  | inequalities {expected found : Nat} :
      OfConstraints (.dimensionMismatch .inequalities expected found)
  /-- The number of equality residuals. -/
  | equalities {expected found : Nat} :
      OfConstraints (.dimensionMismatch .equalities expected found)
  /-- A residual that is not finite. -/
  | notFinite : OfConstraints (.nonFiniteValue .constraints)

variable {α : Type} [Scalar α]

/-- What is wrong with residuals, of which there should be `ng` and `nh`. The numbers come before
the values, and that of the inequalities comes first. -/
inductive Residuals.Fault (ng nh : Nat) (r : Residuals α) : Failure α → Prop where
  /-- The number of inequality residuals. -/
  | inequalities : r.ineq.length ≠ ng →
      Fault ng nh r (.dimensionMismatch .inequalities ng r.ineq.length)
  /-- The number of equality residuals. -/
  | equalities : r.ineq.length = ng → r.eq.length ≠ nh →
      Fault ng nh r (.dimensionMismatch .equalities nh r.eq.length)
  /-- A residual that is not finite. -/
  | notFinite {v : α} : r.ineq.length = ng → r.eq.length = nh → v ∈ r.ineq ++ r.eq →
      isFinite v = false → Fault ng nh r (.nonFiniteValue .constraints)

namespace Residuals

variable {r : Residuals α} {ng nh : Nat} {e : Failure α}

theorem checkFinite_eq_error_iff :
    r.checkFinite = .error e ↔
      (∃ v ∈ r.ineq ++ r.eq, isFinite v = false) ∧ e = .nonFiniteValue .constraints := by
  have hall : (Scalar.allFinite r.ineq = true ∧ Scalar.allFinite r.eq = true) ↔
      ¬ ∃ v ∈ r.ineq ++ r.eq, isFinite v = false := by
    simp [Scalar.allFinite, or_imp, forall_and]
  unfold checkFinite
  by_cases h : Scalar.allFinite r.ineq = true ∧ Scalar.allFinite r.eq = true
  · rw [if_pos h]
    exact ⟨nofun, fun ⟨hbad, _⟩ => absurd hbad (hall.mp h)⟩
  · rw [if_neg h]
    have hbad := not_not.mp (mt hall.mpr h)
    exact ⟨fun heq => ⟨hbad, (Except.error.inj heq).symm⟩, fun ⟨_, heq⟩ => heq ▸ rfl⟩

/-- The check finds what is wrong, and nothing else. -/
theorem check_eq_error_iff : r.check ng nh = .error e ↔ r.Fault ng nh e := by
  unfold check
  by_cases hg : r.ineq.length = ng
  · rw [if_neg (not_not.mpr hg)]
    by_cases hh : r.eq.length = nh
    · rw [if_neg (not_not.mpr hh), checkFinite_eq_error_iff]
      constructor
      · intro ⟨⟨v, hv, hfin⟩, he⟩
        rw [he]
        exact .notFinite hg hh hv hfin
      · intro h
        cases h with
        | inequalities hne => exact absurd hg hne
        | equalities _ hne => exact absurd hh hne
        | notFinite _ _ hv hfin => exact ⟨⟨_, hv, hfin⟩, rfl⟩
    · rw [if_pos hh]
      constructor
      · intro h
        cases h
        exact .equalities hg hh
      · intro h
        cases h with
        | inequalities hne => exact absurd hg hne
        | equalities _ _ => rfl
        | notFinite _ heq _ _ => exact absurd heq hh
  · rw [if_pos hg]
    constructor
    · intro h
      cases h
      exact .inequalities hg
    · intro h
      cases h with
      | inequalities _ => rfl
      | equalities heq _ => exact absurd heq hg
      | notFinite heq _ _ _ => exact absurd heq hg

theorem failure?_eq_some_iff_fault : r.failure? ng nh = some e ↔ r.Fault ng nh e :=
  failure?_eq_some_iff.trans check_eq_error_iff

theorem failure?_eq_none_iff_fault : r.failure? ng nh = none ↔ ∀ e, ¬ r.Fault ng nh e := by
  rw [Option.eq_none_iff_forall_ne_some]
  exact forall_congr' fun e => not_congr failure?_eq_some_iff_fault

/-- Residuals whose numbers are those asked for can only fail to be finite. -/
theorem check_self (r : Residuals α) : r.check r.ineq.length r.eq.length = r.checkFinite := by
  rw [check, if_neg (not_not.mpr rfl), if_neg (not_not.mpr rfl)]

/-- Residuals that pass the check have the numbers asked for. -/
theorem lengths_of_check (h : r.check ng nh = .ok ()) :
    r.ineq.length = ng ∧ r.eq.length = nh := by
  have hnone := failure?_eq_none_iff_fault.mp (failure?_eq_none_iff.mpr h)
  have hg : r.ineq.length = ng :=
    Decidable.byContradiction fun hne => hnone _ (.inequalities hne)
  exact ⟨hg, Decidable.byContradiction fun hne => hnone _ (.equalities hg hne)⟩

end Residuals

/-! ### The first fault -/

namespace Transcript

variable {ng nh : Nat} {t : Transcript α}

/-- The first evaluation of the constraints that is not as it should be has the fault `e`. -/
def FirstFault (ng nh : Nat) (t : Transcript α) (e : Failure α) : Prop :=
  ∃ before x r after, t.constraintEvaluations = before ++ (x, r) :: after ∧
    r.Fault ng nh e ∧ ∀ p ∈ before, ∀ e', ¬ p.2.Fault ng nh e'

theorem firstFailure_eq_some_iff {e : Failure α} :
    t.firstFailure ng nh = some e ↔ t.FirstFault ng nh e := by
  rw [firstFailure, List.findSome?_eq_some_iff]
  simp only [Residuals.failure?_eq_some_iff_fault, Residuals.failure?_eq_none_iff_fault]
  constructor
  · intro h
    obtain ⟨before, ⟨x, r⟩, after, ht, hr, hbefore⟩ := h
    exact ⟨before, x, r, after, ht, hr, hbefore⟩
  · intro h
    obtain ⟨before, x, r, after, ht, hr, hbefore⟩ := h
    exact ⟨before, (x, r), after, ht, hr, hbefore⟩

/-- Where there is a fault, there is a first one. -/
theorem exists_firstFailure {p : Vec α × Residuals α} (hp : p ∈ t.constraintEvaluations)
    {e : Failure α} (he : p.2.Fault ng nh e) : ∃ e', t.firstFailure ng nh = some e' := by
  rw [← Option.ne_none_iff_exists', firstFailure]
  intro hnone
  rw [List.findSome?_eq_none_iff] at hnone
  exact Residuals.failure?_eq_none_iff_fault.mp (hnone p hp) e he

end Transcript

/-! ### Failures of the two update rules -/

namespace UpdateRule

variable {b : Mat α} {dx dg : Vec α} {e : Failure α}

omit [Scalar α] in
theorem not_ofConstraints_of_checkSizes (h : checkSizes b dx dg = .error e) :
    ¬ e.OfConstraints := by
  unfold checkSizes at h
  split_ifs at h
  all_goals
    cases h
    exact nofun

theorem not_ofConstraints_of_bfgs (h : bfgs b dx dg = .error e) : ¬ e.OfConstraints := by
  rcases failure_of_bfgs h with h | ⟨c, rfl⟩
  · exact not_ofConstraints_of_checkSizes h
  · exact nofun

theorem not_ofConstraints_of_dfp (h : dfp b dx dg = .error e) : ¬ e.OfConstraints := by
  rcases failure_of_dfp h with h | ⟨c, rfl⟩
  · exact not_ofConstraints_of_checkSizes h
  · exact nofun

end UpdateRule

/-! ### Failures of an inner run -/

omit [Scalar α] in
/-- An iteration has no failure of this kind. -/
theorem Failure.OfIteration.not_ofConstraints {e : Failure α} (h : e.OfIteration) :
    ¬ e.OfConstraints := by
  cases h with
  | objective => exact nofun
  | searchDirection => exact nofun
  | gradient => exact nofun
  | length _ => exact nofun

/-- A quasi-Newton run fails with a failure of the constraints only if its update rule does. -/
theorem Run.ruleFails_of_ends_quasiNewton {opt : Options α} {x₀ : Vec α} {t : Transcript α}
    {e : Failure α} (hend : Ends (quasiNewton opt x₀) t (.error e)) (he : e.OfConstraints) :
    t.RuleFails e := by
  have hsolve : Ends (Method.quasiNewton.solve opt x₀) t (.error e) := hend
  rcases Method.failure_of_ends hsolve with ⟨fault, rfl⟩ | rfl | hiteration | hrule
  · cases he
  · cases he
  · exact absurd he hiteration.not_ofConstraints
  · exact hrule

end Optimum

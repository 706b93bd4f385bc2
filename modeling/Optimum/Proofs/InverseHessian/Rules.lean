import Mathlib.Logic.Basic
import Mathlib.Tactic.SplitIfs
import Optimum.InverseHessian
import Optimum.Proofs.Outcomes

/-!
# What the update rules accept

Both rules accept a pair of vectors of matching size that shows curvature, and then compute their
change. The Davidon-Fletcher-Powell rule also divides by the product of the change of gradient with
its own image, which must be positive. A rule that does not accept a pair either finds sizes that do
not match, before anything else, or refuses it for want of curvature.
-/

namespace Optimum

open Scalar

namespace UpdateRule

variable {α : Type} [Scalar α] {b db : Mat α} {dx dg : Vec α}

/-! ### Pairs -/

/-- The sizes that both rules ask for. -/
def Matching (b : Mat α) (dx dg : Vec α) : Prop := dg.length = dx.length ∧ b.IsSquare dx.length

/-- The curvature that both rules ask for. -/
def Curved (dx dg : Vec α) : Prop := epsilon * Vec.norm dx * Vec.norm dg < Vec.dot dx dg

omit [Scalar α] in
theorem checkSizes_eq_ok_iff {u : Unit} : checkSizes b dx dg = .ok u ↔ Matching b dx dg := by
  unfold checkSizes Matching
  split_ifs with h₁ h₂
  · exact ⟨nofun, fun h => absurd h.1 h₁⟩
  · exact ⟨fun _ => ⟨not_not.mp h₁, h₂⟩, fun _ => rfl⟩
  · exact ⟨nofun, fun h => absurd h.2 h₂⟩

theorem curvature_eq_ok_iff {c : α} :
    curvature dx dg = .ok c ↔ Curved dx dg ∧ c = Vec.dot dx dg := by
  unfold curvature Curved
  simp only
  split_ifs with h
  · exact ⟨fun heq => ⟨h, (Except.ok.inj heq).symm⟩, fun heq => congrArg _ heq.2.symm⟩
  · exact ⟨nofun, fun heq => absurd heq.1 h⟩

theorem checkFinite_eq_ok_iff {c : Mat α} {sy : α} :
    checkFinite c sy = .ok db ↔ c.allFinite = true ∧ db = c := by
  unfold checkFinite
  split_ifs with h
  · exact ⟨fun heq => ⟨h, (Except.ok.inj heq).symm⟩, fun heq => congrArg _ heq.2.symm⟩
  · exact ⟨nofun, fun heq => absurd heq.1 h⟩

/-! ### Changes -/

/-- The change of the Broyden-Fletcher-Goldfarb-Shanno rule. -/
def bfgsChange (b : Mat α) (dx dg : Vec α) : Mat α :=
  let sy := Vec.dot dx dg
  let c := 1 + Vec.dotBlocked (b.mulVec dg) dg / sy
  Mat.ofPairs (fun si ui sj uj => c * si * sj / sy - (si * uj + ui * sj) / sy) dx (b.mulVec dg)

/-- The change of the Davidon-Fletcher-Powell rule. -/
def dfpChange (b : Mat α) (dx dg : Vec α) : Mat α :=
  let sy := Vec.dot dx dg
  let yby := Vec.dotBlocked (b.mulVec dg) dg
  Mat.ofPairs (fun si ui sj uj => si * sj / sy - ui * uj / yby) dx (b.mulVec dg)

/-- The checks that both rules make before anything else. -/
private theorem checked_eq_ok_iff {rest : α → Except (Failure α) (Mat α)} :
    (do checkSizes b dx dg; let sy ← curvature dx dg; rest sy) = .ok db ↔
      Matching b dx dg ∧ Curved dx dg ∧ rest (Vec.dot dx dg) = .ok db := by
  constructor
  · intro h
    cases h₁ : checkSizes b dx dg with
    | error e => simp [h₁, bind, Except.bind] at h
    | ok u =>
      cases h₂ : curvature dx dg with
      | error e => simp [h₁, h₂, bind, Except.bind] at h
      | ok sy =>
        obtain ⟨hcurved, rfl⟩ := curvature_eq_ok_iff.mp h₂
        rw [h₁, h₂] at h
        exact ⟨checkSizes_eq_ok_iff.mp h₁, hcurved, h⟩
  · rintro ⟨hsizes, hcurved, h⟩
    rw [checkSizes_eq_ok_iff (u := ()).mpr hsizes, curvature_eq_ok_iff.mpr ⟨hcurved, rfl⟩]
    exact h

theorem bfgs_eq_ok_iff : bfgs b dx dg = .ok db ↔ Matching b dx dg ∧ Curved dx dg ∧
    (bfgsChange b dx dg).allFinite = true ∧ db = bfgsChange b dx dg := by
  rw [bfgs, checked_eq_ok_iff]
  exact and_congr Iff.rfl (and_congr Iff.rfl checkFinite_eq_ok_iff)

theorem dfp_eq_ok_iff : dfp b dx dg = .ok db ↔ Matching b dx dg ∧ Curved dx dg ∧
    0 < Vec.dotBlocked (b.mulVec dg) dg ∧
    (dfpChange b dx dg).allFinite = true ∧ db = dfpChange b dx dg := by
  rw [dfp, checked_eq_ok_iff]
  refine and_congr Iff.rfl (and_congr Iff.rfl ?_)
  simp only
  split_ifs with hpos
  · rw [checkFinite_eq_ok_iff]
    exact (and_iff_right hpos).symm
  · exact ⟨nofun, fun h => absurd h.1 hpos⟩

/-! ### Failures -/

variable {e : Failure α}

omit [Scalar α] in
private theorem eq_error_of_bind {β γ : Type} {x : Except (Failure α) β}
    {f : β → Except (Failure α) γ} (h : x >>= f = .error e) :
    x = .error e ∨ ∃ b, f b = .error e := by
  cases x with
  | error e' => exact Or.inl (congrArg _ (Except.error.inj h))
  | ok b => exact Or.inr ⟨b, h⟩

theorem refuses_of_curvature (h : curvature dx dg = .error e) :
    ∃ c, e = .illConditionedUpdate c := by
  unfold curvature at h
  simp only at h
  split_ifs at h
  exact ⟨_, (Except.error.inj h).symm⟩

theorem refuses_of_checkFinite {sy : α} (h : checkFinite db sy = .error e) :
    ∃ c, e = .illConditionedUpdate c := by
  unfold checkFinite at h
  split_ifs at h
  exact ⟨_, (Except.error.inj h).symm⟩

/-- A rule fails because of the sizes, or refuses for want of curvature. -/
theorem failure_of_bfgs (h : bfgs b dx dg = .error e) :
    checkSizes b dx dg = .error e ∨ ∃ c, e = .illConditionedUpdate c := by
  rcases eq_error_of_bind h with h | ⟨u, h⟩
  · exact .inl h
  rcases eq_error_of_bind h with h | ⟨sy, h⟩
  · exact .inr (refuses_of_curvature h)
  · exact .inr (refuses_of_checkFinite h)

theorem failure_of_dfp (h : dfp b dx dg = .error e) :
    checkSizes b dx dg = .error e ∨ ∃ c, e = .illConditionedUpdate c := by
  rcases eq_error_of_bind h with h | ⟨u, h⟩
  · exact .inl h
  rcases eq_error_of_bind h with h | ⟨sy, h⟩
  · exact .inr (refuses_of_curvature h)
  simp only at h
  split_ifs at h
  · exact .inr (refuses_of_checkFinite h)
  · exact .inr ⟨_, (Except.error.inj h).symm⟩

/-- Sizes come before anything else. -/
theorem bfgs_of_checkSizes (h : checkSizes b dx dg = .error e) : bfgs b dx dg = .error e := by
  rw [bfgs, h]
  rfl

theorem dfp_of_checkSizes (h : checkSizes b dx dg = .error e) : dfp b dx dg = .error e := by
  rw [dfp, h]
  rfl

/-! ### Shapes -/

theorem sameShape_ofPairs (h : Matching b dx dg) (entry : α → α → α → α → α) :
    Mat.SameShape (Mat.ofPairs entry dx (b.mulVec dg)) b := by
  obtain ⟨-, hheight, hwidth⟩ := h
  constructor
  · rw [Mat.height_ofPairs, Mat.length_mulVec, hheight, Nat.min_self]
  · rw [Mat.width_ofPairs, Mat.length_mulVec, hheight, hwidth, Nat.min_self]

/-- Both rules give changes of the shape of the approximation. -/
theorem sameShape_of_bfgs (h : bfgs b dx dg = .ok db) : Mat.SameShape db b := by
  obtain ⟨hsizes, -, -, rfl⟩ := bfgs_eq_ok_iff.mp h
  exact sameShape_ofPairs hsizes _

theorem sameShape_of_dfp (h : dfp b dx dg = .ok db) : Mat.SameShape db b := by
  obtain ⟨hsizes, -, -, -, rfl⟩ := dfp_eq_ok_iff.mp h
  exact sameShape_ofPairs hsizes _

end UpdateRule

end Optimum

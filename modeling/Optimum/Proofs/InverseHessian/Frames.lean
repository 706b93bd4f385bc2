import Optimum.Proofs.Frame
import Optimum.Proofs.InverseHessian.Secant

/-!
# Update rules and frames of reference

A rule is made of inner products and products with matrices. So in exact arithmetic it accepts a
pair in every frame or in none, and its change is the same change, seen from another frame.
-/

namespace Optimum

open Scalar

namespace UpdateRule

variable {n : ℕ} {F : Frame n} {b c : Mat ℝ} {dx dx' dg dg' : Vec ℝ}

/-- A rule that does the same in the old and in the new frame. -/
def Frameless (F : Frame n) (rule : UpdateRule ℝ) : Prop :=
  ∀ ⦃b c dx dx' dg dg'⦄, F.TurnsMatrix b c → F.Turns dx dx' → F.Turns dg dg' →
    Run.Corresponds F.TurnsMatrix (rule b dx dg) (rule c dx' dg')

theorem curvature_turned (hx : F.Turns dx dx') (hg : F.Turns dg dg') :
    curvature dx' dg' = curvature dx dg := by
  simp only [curvature, hx.dot hg, hx.norm, hg.norm]

/-- The checks that both rules make before anything else. -/
theorem corresponds_checked {R : Mat ℝ → Mat ℝ → Prop} {rest rest' : ℝ → Except (Failure ℝ) (Mat ℝ)}
    (hb : F.TurnsMatrix b c) (hx : F.Turns dx dx') (hg : F.Turns dg dg')
    (hrest : ∀ sy, Run.Corresponds R (rest sy) (rest' sy)) :
    Run.Corresponds R (do checkSizes b dx dg; let sy ← curvature dx dg; rest sy)
      (do checkSizes c dx' dg'; let sy ← curvature dx' dg'; rest' sy) := by
  rw [checkSizes_eq_ok_iff (u := ()).mpr (matching_of_isSquare hb.isSquare hx.length hg.length),
    checkSizes_eq_ok_iff (u := ()).mpr (matching_of_isSquare hb.isSquare' hx.length' hg.length'),
    curvature_turned hx hg]
  cases curvature dx dg with
  | error e => exact .error e
  | ok sy => exact hrest sy

theorem frameless_bfgs (F : Frame n) : Frameless F bfgs := by
  intro b c dx dx' dg dg' hb hx hg
  have himage := hb.mulVec hg
  refine corresponds_checked hb hx hg fun sy => ?_
  simp only [Vec.dotBlocked_eq_dot, himage.dot hg, checkFinite_real]
  exact .ok (hx.ofPairs himage _)

theorem frameless_dfp (F : Frame n) : Frameless F dfp := by
  intro b c dx dx' dg dg' hb hx hg
  have himage := hb.mulVec hg
  refine corresponds_checked hb hx hg fun sy => ?_
  simp only [Vec.dotBlocked_eq_dot, himage.dot hg, checkFinite_real]
  split
  · exact .ok (hx.ofPairs himage _)
  · exact .error _

end UpdateRule

end Optimum

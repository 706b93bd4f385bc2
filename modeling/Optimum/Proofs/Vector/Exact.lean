import Mathlib.Algebra.BigOperators.Group.List.Basic
import Mathlib.Algebra.Order.BigOperators.Group.List
import Mathlib.Tactic.Ring
import Optimum.Proofs.Scalar.Exact
import Optimum.Vector

/-!
# Vectors of exact scalars

Over the real numbers the two inner products agree (`dotBlocked_eq_dot`), and norm and distance
are those of Euclidean space.
-/

namespace Optimum

open Scalar

namespace Vec

/-! ### Inner products -/

@[simp] theorem dot_nil_left (b : Vec ℝ) : dot [] b = 0 := by simp [dot]

@[simp] theorem dot_nil_right (a : Vec ℝ) : dot a [] = 0 := by simp [dot]

@[simp] theorem dot_cons (x : ℝ) (a : Vec ℝ) (y : ℝ) (b : Vec ℝ) :
    dot (x :: a) (y :: b) = x * y + dot a b := by
  simp [dot]

theorem dot_comm (a b : Vec ℝ) : dot a b = dot b a := by
  rw [dot, dot, List.zipWith_comm_of_comm mul_comm]

theorem dot_neg_right (a b : Vec ℝ) : dot a (neg b) = -dot a b := by
  induction a generalizing b with
  | nil => simp
  | cons x a ih =>
    cases b with
    | nil => simp [neg]
    | cons y b =>
      rw [neg, List.map_cons, dot_cons, dot_cons, ← neg, ih]
      ring

theorem dot_self_nonneg (a : Vec ℝ) : 0 ≤ dot a a := by
  induction a with
  | nil => simp
  | cons x a ih =>
    rw [dot_cons]
    exact add_nonneg (mul_self_nonneg x) ih

private theorem absorb_eq (l : Lanes ℝ) (cs : List ℝ) : l.absorb cs = l.join + cs.sum := by
  induction l, cs using Lanes.absorb.induct with
  | case1 l c0 c1 c2 c3 c4 c5 c6 c7 rest ih =>
    rw [Lanes.absorb, ih]
    simp only [Lanes.join, List.sum_cons]
    ring
  | case2 l rest h =>
    rw [Lanes.absorb]
    · rw [← add_zero l.join, List.foldl_assoc, ← List.sum_eq_foldl, add_zero]
    · exact h

/-- How the products are added up makes no difference. -/
@[simp] theorem dotBlocked_eq_dot (a b : Vec ℝ) : dotBlocked a b = dot a b := by
  rw [dotBlocked, absorb_eq, dot, total_real]
  simp [Lanes.zero, Lanes.join]

/-! ### Lines and distances -/

theorem along_zero {x s : Vec ℝ} (h : s.length = x.length) : along x s 0 = x := by
  induction x generalizing s with
  | nil => simp [along]
  | cons a x ih =>
    cases s with
    | nil => simp at h
    | cons b s =>
      have := ih (Nat.succ.inj h)
      simp_all [along]

theorem distance_self (x : Vec ℝ) : distance x x = 0 := by
  simp [distance]

end Vec

end Optimum

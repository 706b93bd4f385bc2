import Mathlib.Tactic.Linarith
import Optimum.Bracket
import Optimum.Proofs.Mirror
import Optimum.Proofs.Scalar.Exact

/-!
# Brent's search and the units of its function

In exact arithmetic the search uses the values of its function only to compare them, and to find the
vertex of a parabola, where their differences occur above and below the fraction bar. So it looks at
the same abscissas if the function is measured in another unit and from another origin, `c φ + d`
for `φ` with `0 < c`.

## What is proved

* `Bracket.proposal_rescale` and `Bracket.advance_rescale`: a bracket with rescaled values proposes
  the same point, and goes on to one with rescaled values.
* `Search.reflects_boundedBrent`: the search, as a tree of questions, is the same up to the scale of
  the answers.
-/

namespace Optimum

open Scalar

variable {c : ℝ} (d : ℝ)

/-! ### Values on another scale -/

/-- The comparison of two values does not depend on the scale. -/
theorem rescale_le_rescale_iff (hc : 0 < c) {v w : ℝ} : c * v + d ≤ c * w + d ↔ v ≤ w := by
  rw [add_le_add_iff_right, mul_le_mul_iff_right₀ hc]

theorem rescale_lt_rescale_iff (hc : 0 < c) {v w : ℝ} : c * v + d < c * w + d ↔ v < w := by
  rw [add_lt_add_iff_right, mul_lt_mul_iff_right₀ hc]

/-- A sample of the function on another scale. -/
def Sample.rescale (c d : ℝ) (s : Sample ℝ) : Sample ℝ := ⟨s.x, c * s.f + d⟩

/-- A result of the search on another scale. -/
def Found.rescale (c d : ℝ) (found : Found ℝ) : Found ℝ :=
  { found with best := found.best.rescale c d }

namespace Bracket

/-- A bracket of the function on another scale. -/
def rescale (c d : ℝ) (b : Bracket ℝ) : Bracket ℝ :=
  { b with
    best := b.best.rescale c d
    second := b.second.rescale c d
    third := b.third.rescale c d }

variable (b : Bracket ℝ) (tol : ℝ) (new : Sample ℝ)

@[simp] theorem isResolved_rescale : (b.rescale c d).IsResolved tol = b.IsResolved tol := rfl

/-- Numerator and denominator of the move to the vertex scale with the values. -/
theorem vertex_rescale (hc : 0 < c) :
    (b.rescale c d).vertex = (c * b.vertex.1, c * b.vertex.2) := by
  have hdiff : ∀ v w : ℝ, c * v + d - (c * w + d) = c * (v - w) := fun v w => by ring
  have hprod : ∀ a v : ℝ, a * (c * v) = c * (a * v) := fun a v => by ring
  simp only [vertex, rescale, Sample.rescale, hdiff, hprod, ← mul_sub, mul_pos_iff_of_pos_left hc,
    magnitude_real, abs_mul c, abs_of_pos hc, mul_ite, mul_neg]

/-- The vertex, and whether the move there is safe, do not depend on the scale. -/
theorem vertexMove_rescale (hc : 0 < c) : (b.rescale c d).vertexMove tol = b.vertexMove tol := by
  have hshorter : ∀ p q l : ℝ, |c * p| < |0.5 * (c * q) * l| ↔ |p| < |0.5 * q * l| := by
    intro p q l
    rw [show 0.5 * (c * q) * l = c * (0.5 * q * l) by ring, abs_mul c, abs_mul c, abs_of_pos hc,
      mul_lt_mul_iff_right₀ hc]
  have hinside : ∀ p q l : ℝ, (c * q * l < c * p ↔ q * l < p) ∧ (c * p < c * q * l ↔ p < q * l) :=
    fun p q l => by rw [mul_assoc, mul_lt_mul_iff_right₀ hc, mul_lt_mul_iff_right₀ hc]; trivial
  have hquotient : ∀ p q : ℝ, c * p / (c * q) = p / q := fun p q => mul_div_mul_left p q hc.ne'
  simp only [vertexMove, vertex_rescale d b hc, magnitude_real, hquotient]
  simp only [hshorter, hinside]
  rfl

theorem move_rescale (hc : 0 < c) : (b.rescale c d).move tol = b.move tol := by
  rw [move, vertexMove_rescale d b tol hc]
  rfl

/-- **The next point does not depend on the scale.** -/
theorem proposal_rescale (hc : 0 < c) : (b.rescale c d).proposal tol = b.proposal tol := by
  rw [proposal, move_rescale d b tol hc]
  rfl

theorem improve_rescale : (b.rescale c d).improve (new.rescale c d) = (b.improve new).rescale c d :=
  rfl

/-- The second half of `retain`: where the new point ranks, once the interval is cut. -/
private theorem rank_rescale (hc : 0 < c) :
    (if (new.rescale c d).f ≤ (b.rescale c d).second.f ∨ b.second.x == b.best.x then
        { b.rescale c d with second := new.rescale c d, third := (b.rescale c d).second }
      else if (new.rescale c d).f ≤ (b.rescale c d).third.f ∨ b.third.x == b.best.x ∨
          b.third.x == b.second.x then
        { b.rescale c d with third := new.rescale c d }
      else b.rescale c d) =
    (if new.f ≤ b.second.f ∨ b.second.x == b.best.x then
        { b with second := new, third := b.second }
      else if new.f ≤ b.third.f ∨ b.third.x == b.best.x ∨ b.third.x == b.second.x then
        { b with third := new }
      else b).rescale c d := by
  have hsecond : (new.rescale c d).f ≤ (b.rescale c d).second.f ↔ new.f ≤ b.second.f :=
    rescale_le_rescale_iff d hc
  have hthird : (new.rescale c d).f ≤ (b.rescale c d).third.f ↔ new.f ≤ b.third.f :=
    rescale_le_rescale_iff d hc
  simp only [hsecond, hthird]
  split_ifs <;> rfl

theorem retain_rescale (hc : 0 < c) :
    (b.rescale c d).retain (new.rescale c d) = (b.retain new).rescale c d := by
  by_cases hx : new.x < b.best.x
  · have hrank := rank_rescale d { b with lo := new.x } new hc
    unfold retain
    rw [if_pos hx, if_pos (show (new.rescale c d).x < (b.rescale c d).best.x from hx)]
    exact hrank
  · have hrank := rank_rescale d { b with hi := new.x } new hc
    unfold retain
    rw [if_neg hx, if_neg (show ¬ (new.rescale c d).x < (b.rescale c d).best.x from hx)]
    exact hrank

theorem absorb_rescale (hc : 0 < c) :
    (b.rescale c d).absorb (new.rescale c d) = (b.absorb new).rescale c d := by
  have hle : (new.rescale c d).f ≤ (b.rescale c d).best.f ↔ new.f ≤ b.best.f :=
    rescale_le_rescale_iff d hc
  unfold absorb
  by_cases hbest : new.f ≤ b.best.f
  · rw [if_pos hbest, if_pos (hle.mpr hbest), improve_rescale]
  · rw [if_neg hbest, if_neg (hbest ∘ hle.mp), retain_rescale d b new hc]

/-- **Nor does anything but the values of the state after it.** -/
theorem advance_rescale (hc : 0 < c) (f : ℝ) :
    (b.rescale c d).advance tol (c * f + d) = (b.advance tol f).rescale c d := by
  have habsorb := absorb_rescale d b ⟨b.proposal tol, f⟩ hc
  rw [advance, advance, proposal_rescale d b tol hc, move_rescale d b tol hc]
  exact congrArg (fun b' : Bracket ℝ => { b' with last := b.move tol }) habsorb

end Bracket

/-! ### The search -/

/-- The same questions, with answers on another scale. -/
def Mirror.rescaling {Q : Type} (c d : ℝ) : Mirror fun _ : Q => ℝ where
  question q := q
  answer _ v := c * v + d
  Asks _ := True
  Admits _ _ := True

namespace Search

theorem reflects_refine (hc : 0 < c) (tol : ℝ) (left spent : ℕ) (b : Bracket ℝ) :
    (Mirror.rescaling c d).Reflects (Found.rescale c d) (refine tol left spent b)
      (refine tol left spent (b.rescale c d)) := by
  induction left generalizing spent b with
  | zero => exact .done _
  | succ left ih =>
    rw [refine, refine, b.proposal_rescale d tol hc]
    by_cases hres : b.IsResolved tol
    · rw [if_pos hres, if_pos (show (b.rescale c d).IsResolved tol from hres)]
      exact .done _
    · rw [if_neg hres, if_neg (show ¬ (b.rescale c d).IsResolved tol from hres)]
      refine .ask trivial fun f _ => ?_
      have hnext := ih (spent + 1) (b.advance tol f)
      rwa [← b.advance_rescale d tol hc] at hnext

/-- **Brent's search does not see the units of its function.** -/
theorem reflects_boundedBrent (hc : 0 < c) (lo hi tol : ℝ) (maxFev : ℕ) :
    (Mirror.rescaling c d).Reflects (Found.rescale c d) (boundedBrent lo hi tol maxFev)
      (boundedBrent lo hi tol maxFev) :=
  .ask trivial fun _ _ => reflects_refine d hc tol _ _ _

/-- Brent's search on `c φ + d` looks at the same abscissas as on `φ`, in the same order, and finds
the same; `φ` may keep a state, or fail. -/
theorem record_boundedBrent_rescale {m : Type → Type} [Monad m] [LawfulMonad m] (hc : 0 < c)
    (φ : ℝ → m ℝ) (lo hi tol : ℝ) (maxFev : ℕ) :
    (boundedBrent lo hi tol maxFev).record (fun x => (c * · + d) <$> φ x) =
      (fun p => (p.1.rescale c d, p.2.map fun x => ⟨x.question, c * x.answer + d⟩)) <$>
        (boundedBrent lo hi tol maxFev).record φ :=
  (reflects_boundedBrent d hc lo hi tol maxFev).record_map (fun _ _ => rfl) fun _ _ => trivial

end Search

end Optimum

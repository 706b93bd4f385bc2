import Optimum.Dialogue
import Optimum.Scalar

/-!
# Bracketed minimisation

Brent's search for a minimum of a function on an interval.  Its state is a `Bracket`: an
interval, the best three points seen with their values, and the last two moves.  Each pass
proposes a new point from the state alone (`Bracket.proposal`), asks for its value, and takes
the point in (`Bracket.absorb`).  The new point is the vertex of the parabola through the three
points where that is safe (`Bracket.vertexMove`), and otherwise divides the larger part of the
interval in the golden section (`Bracket.goldenMove`).

The search (`boundedBrent`) is a dialogue with the function: its questions are abscissas.  It
ends when the bracket is resolved or its budget of evaluations is spent.
-/

namespace Optimum

open Scalar

/-- A point of a function's graph. -/
structure Sample (α : Type) where
  /-- The abscissa. -/
  x : α
  /-- The value. -/
  f : α

/-- A move of a search: from the best point, and what the next pass remembers of it. -/
structure Move (α : Type) where
  /-- The signed length of the move. -/
  step : α
  /-- The length that the next pass holds a parabolic move against. -/
  reach : α

/-- The state of a search on an interval. -/
structure Bracket (α : Type) where
  /-- The lower end of the interval. -/
  lo : α
  /-- The upper end of the interval. -/
  hi : α
  /-- The best point. -/
  best : Sample α
  /-- The second best point. -/
  second : Sample α
  /-- The third best point. -/
  third : Sample α
  /-- The last move. -/
  last : Move α

namespace Bracket

variable {α : Type} [Scalar α]

/-- The smaller part of a unit divided in the golden section, `(3 - √5) / 2`. -/
def goldenMean : α := 0.5 * (3.0 - sqrt 5.0)

/-- The point of an interval at which a search begins. -/
def start (lo hi : α) : α := lo + goldenMean * (hi - lo)

/-- The state after the first evaluation. -/
def init (lo hi : α) (first : Sample α) : Bracket α where
  lo := lo
  hi := hi
  best := first
  second := first
  third := first
  last := ⟨0, 0⟩

/-- The middle of the interval. -/
def middle (b : Bracket α) : α := 0.5 * (b.lo + b.hi)

/-- The least distance between the best point and a new one: relative to the best point, plus
a third of the absolute tolerance. -/
def resolution (b : Bracket α) (tol : α) : α := sqrt epsilon * magnitude b.best.x + tol / 3.0

/-- Whether the interval is as small around the best point as the tolerance asks. -/
def IsResolved (b : Bracket α) (tol : α) : Prop :=
  ¬ 2.0 * b.resolution tol - 0.5 * (b.hi - b.lo) < magnitude (b.best.x - b.middle)

instance (b : Bracket α) (tol : α) : Decidable (b.IsResolved tol) :=
  inferInstanceAs (Decidable (¬ _))

/-! ### The next point -/

/-- Numerator and denominator of the move to the vertex of the parabola through the three best
points; the denominator is not negative. -/
def vertex (b : Bracket α) : α × α :=
  let r := (b.best.x - b.second.x) * (b.best.f - b.third.f)
  let q := (b.best.x - b.third.x) * (b.best.f - b.second.f)
  let p := (b.best.x - b.third.x) * q - (b.best.x - b.second.x) * r
  let q := 2.0 * (q - r)
  (if 0 < q then -p else p, magnitude q)

/-- The move to the vertex of the parabola, where it is safe: the move before the last was
longer than the resolution, the vertex lies inside the interval, and the move is less than half
as long as that one.  A vertex too close to an end is replaced by the least move toward the
middle. -/
def vertexMove (b : Bracket α) (tol : α) : Option (Move α) :=
  let tol₁ := b.resolution tol
  let tol₂ := 2.0 * tol₁
  if tol₁ < magnitude b.last.reach then
    let (p, q) := b.vertex
    if magnitude p < magnitude (0.5 * q * b.last.reach) ∧
        q * (b.lo - b.best.x) < p ∧ p < q * (b.hi - b.best.x) then
      let step := p / q
      let x := b.best.x + step
      if x - b.lo < tol₂ ∨ b.hi - x < tol₂ then
        some ⟨if b.best.x ≤ b.middle then tol₁ else -tol₁, b.last.step⟩
      else some ⟨step, b.last.step⟩
    else none
  else none

/-- The move into the larger part of the interval, by the golden section of that part. -/
def goldenMove (b : Bracket α) : Move α :=
  let part := if b.middle ≤ b.best.x then b.lo - b.best.x else b.hi - b.best.x
  ⟨goldenMean * part, part⟩

/-- The next move. -/
def move (b : Bracket α) (tol : α) : Move α := (b.vertexMove tol).getD b.goldenMove

/-- The point that a move leads to, never closer to the best point than the resolution. -/
def target (b : Bracket α) (tol : α) (m : Move α) : α :=
  let sign : α := if 0 ≤ m.step then 1 else -1
  b.best.x + sign * larger (magnitude m.step) (b.resolution tol)

/-- The point to evaluate next. -/
def proposal (b : Bracket α) (tol : α) : α := b.target tol (b.move tol)

/-! ### Taking a point in -/

/-- A point no worse than the best takes its place, and the old best point becomes an end of
the interval. -/
def improve (b : Bracket α) (new : Sample α) : Bracket α :=
  { b with
    lo := if b.best.x ≤ new.x then b.best.x else b.lo
    hi := if b.best.x ≤ new.x then b.hi else b.best.x
    best := new
    second := b.best
    third := b.second }

/-- A point worse than the best becomes an end of the interval, and is kept as second or third
best where it ranks so. -/
def retain (b : Bracket α) (new : Sample α) : Bracket α :=
  let b := if new.x < b.best.x then { b with lo := new.x } else { b with hi := new.x }
  if new.f ≤ b.second.f ∨ b.second.x == b.best.x then
    { b with second := new, third := b.second }
  else if new.f ≤ b.third.f ∨ b.third.x == b.best.x ∨ b.third.x == b.second.x then
    { b with third := new }
  else b

/-- The state with a new point taken in. -/
def absorb (b : Bracket α) (new : Sample α) : Bracket α :=
  if new.f ≤ b.best.f then b.improve new else b.retain new

/-- The state after a move to a point with value `f`. -/
def advance (b : Bracket α) (tol f : α) : Bracket α :=
  { b.absorb ⟨b.proposal tol, f⟩ with last := b.move tol }

end Bracket

/-! ### The search -/

/-- The outcome of a search. -/
structure Found (α : Type) where
  /-- The best point. -/
  best : Sample α
  /-- The number of evaluations. -/
  evaluations : Nat
  /-- Whether the budget was spent before the bracket was resolved. -/
  stopped : Bool

/-- A search on an interval: a dialogue in which a question is an abscissa. -/
abbrev Search (α β : Type) := Dialogue (fun _ : α => α) β

namespace Search

variable {α : Type} [Scalar α]

/-- The value at an abscissa. -/
def value (x : α) : Search α α := Dialogue.query (A := fun _ : α => α) x

/-- The search from a bracket that `spent` evaluations have led to, with at most `left` more. -/
def refine (tol : α) : (left spent : Nat) → Bracket α → Search α (Found α)
  | 0, spent, b => pure ⟨b.best, spent, ¬ b.IsResolved tol⟩
  | left + 1, spent, b =>
    if b.IsResolved tol then pure ⟨b.best, spent, false⟩
    else do
      let f ← value (b.proposal tol)
      refine tol left (spent + 1) (b.advance tol f)

end Search

/-- Brent's search on the interval from `lo` to `hi`, to the absolute tolerance `tol`, with at
most `maxFev` evaluations; the first evaluation is made in any case. -/
def boundedBrent {α : Type} [Scalar α] (lo hi tol : α) (maxFev : Nat) : Search α (Found α) := do
  let x := Bracket.start lo hi
  let f ← Search.value x
  Search.refine tol (maxFev - 1) 1 (.init lo hi ⟨x, f⟩)

end Optimum

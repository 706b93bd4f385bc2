/-!
# Scalars

The numbers that the library computes with.  Every algorithm is written once, over a
class `Scalar` that fixes the operations and leaves their meaning open.  It is run on
double-precision numbers (`Optimum.Scalar.Binary64`); an exact field with a square root
can be an instance as well, and the mathematics of a method is what holds of it there.

The class carries operations only, no laws: double-precision addition is not
associative, its order is not total, and a comparison with a value that is not a number
is false both ways.  So the order of operations and the direction of every comparison
below are part of what the definitions say.
-/

namespace Optimum

/-- A type of numbers to optimise over: the four operations, comparisons that can be
tested, literals, a square root, an absolute value, and the two facts about a
representation that the algorithms ask for. -/
class Scalar (α : Type) extends Add α, Sub α, Mul α, Div α, Neg α, Zero α, One α, LE α, LT α, BEq α,
    OfScientific α where
  /-- The square root. -/
  sqrt : α → α
  /-- The absolute value. -/
  magnitude : α → α
  /-- Whether a value is a number of finite size. -/
  isFinite : α → Bool
  /-- The spacing of the representable numbers just above one. -/
  epsilon : α
  /-- The order can be tested. -/
  [decLE : DecidableLE α]
  /-- The strict order can be tested. -/
  [decLT : DecidableLT α]

namespace Scalar

variable {α : Type} [Scalar α]

instance : DecidableLE α := decLE

instance : DecidableLT α := decLT

/-- The quotient of zero by zero: where undefined values exist, it is one of them. -/
def undefined : α := 0 / 0

/-- The larger of two values.  One that is not a number is ignored in favour of the other. -/
def larger (a b : α) : α :=
  if b ≤ a then a else if b == b then b else a

/-- The part of a value that exceeds zero. -/
def excess (a : α) : α := larger a 0

/-- The square of a value. -/
def square (a : α) : α := a * a

/-- The sum of a list, taken from the left.  It starts from minus zero, the neutral
element of an addition with signed zeros. -/
def total (xs : List α) : α := xs.foldl (· + ·) (-0)

/-- Whether every value of a list is finite. -/
def allFinite (xs : List α) : Bool := xs.all isFinite

@[simp] theorem total_nil : total ([] : List α) = -0 := rfl

@[simp] theorem allFinite_nil : allFinite ([] : List α) = true := rfl

@[simp] theorem allFinite_cons (x : α) (xs : List α) :
    allFinite (x :: xs) = (isFinite x && allFinite xs) := rfl

end Scalar

end Optimum

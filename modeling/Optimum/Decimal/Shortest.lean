/-!
# Shortest decimals

The fewest decimal digits that read back as a given double-precision number, and among those
the ones nearest to it.

The numbers that read back as a value form an interval around it, whose ends are half way to
its neighbours (`Around`).  For 1, 2, 3, … digits the value lies between two points of the grid
of decimals with so many digits.  The first grid of which one of the two lies in the interval
gives the digits; of two, the nearer one is taken, and the larger where both are equally near.
All of it is exact arithmetic on natural numbers.
-/

namespace Optimum

/-- A decimal number `digits * 10 ^ exponent`. -/
structure Decimal where
  /-- The digits, as a natural number. -/
  digits : Nat
  /-- The power of ten. -/
  exponent : Int
  deriving DecidableEq, Repr

namespace Decimal

/-! ### The interval of a value -/

/-- A positive value with the interval of the numbers that are rounded to it, all over one
denominator. -/
structure Around where
  /-- Numerator of the lower end. -/
  low : Nat
  /-- Numerator of the value. -/
  value : Nat
  /-- Numerator of the upper end. -/
  high : Nat
  /-- The denominator. -/
  den : Nat
  /-- Whether the ends are rounded to the value. -/
  closed : Bool

/-- The value `m * 2 ^ q` with its interval.  Its neighbours are `2 ^ q` away, the lower one half
as far if the value begins a binade. -/
def Around.ofBinary (m : Nat) (q : Int) (beginsBinade : Bool) : Around :=
  let scale := Nat.pow 2 (q - 2).toNat
  { low := (4 * m - if beginsBinade then 1 else 2) * scale
    value := 4 * m * scale
    high := (4 * m + 2) * scale
    den := Nat.pow 2 (2 - q).toNat
    closed := m % 2 = 0 }

/-- The interval of a positive double-precision number, given the bits of its exponent and of its
fraction. -/
def Around.ofFields (exponent fraction : Nat) : Around :=
  if exponent = 0 then ofBinary fraction (-1074) false
  else ofBinary (Nat.pow 2 52 + fraction) (exponent - 1075) (fraction = 0 && 1 < exponent)

/-! ### Points of a grid -/

/-- The number of decimal digits of a positive natural number. -/
def digitCount (n : Nat) : Nat := (Nat.toDigits 10 n).length

/-- The exponent of the power of ten at or just below the value. -/
def Around.magnitude (v : Around) : Int :=
  if v.den ≤ v.value then (digitCount (v.value / v.den) : Int) - 1
  else -(digitCount ((v.den + v.value - 1) / v.value - 1) : Int)

/-- Whether a decimal lies in the interval. -/
def Around.contains (v : Around) (d : Decimal) : Bool :=
  let n := d.digits * Nat.pow 10 d.exponent.toNat * v.den
  let s := Nat.pow 10 (-d.exponent).toNat
  if v.closed then v.low * s ≤ n ∧ n ≤ v.high * s else v.low * s < n ∧ n < v.high * s

/-- The point at or just below the value, on the grid of the multiples of `10 ^ e`. -/
def Around.floorAt (v : Around) (e : Int) : Nat :=
  v.value * Nat.pow 10 (-e).toNat / (v.den * Nat.pow 10 e.toNat)

/-- Whether the value lies nearer to the point `d` of the grid of the multiples of `10 ^ e` than
to the next one. -/
def Around.nearerLow (v : Around) (e : Int) (d : Nat) : Bool :=
  2 * (v.value * Nat.pow 10 (-e).toNat) < (2 * d + 1) * (v.den * Nat.pow 10 e.toNat)

/-- The point of the grid of the multiples of `10 ^ e` that reads back as the value, if one of its
two neighbours on the grid does: the nearer one, and the larger in a tie. -/
def Around.onGrid? (v : Around) (e : Int) : Option Decimal :=
  let d := v.floorAt e
  let below : Decimal := ⟨d, e⟩
  let above : Decimal := ⟨d + 1, e⟩
  match v.contains below, v.contains above with
  | true, true => some (if v.nearerLow e d then below else above)
  | true, false => some below
  | false, true => some above
  | false, false => none

/-! ### The shortest decimal -/

/-- Zeros at the end of the digits moved into the exponent, at most `fuel` of them. -/
def strip : (fuel : Nat) → Decimal → Decimal
  | 0, d => d
  | fuel + 1, d => if d.digits % 10 = 0 then strip fuel ⟨d.digits / 10, d.exponent + 1⟩ else d

/-- The shortest decimal in the interval.  Seventeen digits always suffice. -/
def Around.shortest (v : Around) : Decimal :=
  let grids := (List.range 17).map fun n : Nat => v.magnitude - n
  let found := grids.findSome? v.onGrid?
  strip 17 (found.getD ⟨v.floorAt (v.magnitude - 16), v.magnitude - 16⟩)

/-- A number as it is written: its sign apart from its size. -/
inductive Numeral where
  /-- Not a number. -/
  | undefined
  /-- An infinity. -/
  | infinite (negative : Bool)
  /-- A finite number. -/
  | finite (negative : Bool) (size : Decimal)
  deriving DecidableEq, Repr

/-- The numeral of a double-precision number. -/
def Numeral.ofFloat (x : Float) : Numeral :=
  let bits := x.toBits.toNat
  let negative : Bool := bits / Nat.pow 2 63 = 1
  let exponent := bits / Nat.pow 2 52 % Nat.pow 2 11
  let fraction := bits % Nat.pow 2 52
  if exponent = Nat.pow 2 11 - 1 then
    if fraction = 0 then .infinite negative else .undefined
  else if exponent = 0 ∧ fraction = 0 then .finite negative ⟨0, 0⟩
  else .finite negative (Around.ofFields exponent fraction).shortest

end Decimal

end Optimum

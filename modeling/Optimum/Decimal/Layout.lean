import Optimum.Decimal.Shortest

/-!
# Layout of decimals

Two ways to write a number with its shortest digits: positional, without an exponent whatever
its size, and scientific, with one digit before the point.  Neither writes a point without
digits after it.
-/

namespace Optimum.Decimal

/-- The digits as characters. -/
def figures (d : Decimal) : List Char := Nat.toDigits 10 d.digits

/-- Written without an exponent: `120`, `1.5`, `0.001`. -/
def positional (d : Decimal) : String :=
  let ds := d.figures
  let whole := (ds.length : Int) + d.exponent
  if 0 ≤ d.exponent then
    String.ofList (ds ++ List.replicate d.exponent.toNat '0')
  else if 0 < whole then
    String.ofList (ds.take whole.toNat ++ '.' :: ds.drop whole.toNat)
  else
    String.ofList ('0' :: '.' :: List.replicate (-whole).toNat '0' ++ ds)

/-- Written with one digit before the point and an exponent: `1.2e2`, `1e-3`. -/
def scientific (d : Decimal) : String :=
  let ds := d.figures
  let exponent := (ds.length : Int) - 1 + d.exponent
  let mantissa := ds.take 1 ++ if ds.length ≤ 1 then [] else '.' :: ds.drop 1
  String.ofList mantissa ++ "e" ++ toString exponent

/-- A numeral in the given layout.  A minus sign also stands before zero. -/
def Numeral.write (layout : Decimal → String) : Numeral → String
  | undefined => "NaN"
  | infinite negative => sign negative ++ "inf"
  | finite negative size => sign negative ++ layout size
where
  /-- The sign of a number. -/
  sign (negative : Bool) : String := if negative then "-" else ""

/-- A double-precision number without an exponent. -/
def plainText (x : Float) : String := (Numeral.ofFloat x).write positional

/-- A double-precision number with an exponent. -/
def scientificText (x : Float) : String := (Numeral.ofFloat x).write scientific

end Optimum.Decimal

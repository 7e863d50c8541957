import Schemata.Number.Binary64
import Schemata.Text

/-! Decimal numbers beside binary ones. `Decimal.toBinary64` is correctly rounded for every digit
string and every exponent. `Binary64.text` writes integers below 10^21 in full; any other finite
number gets the fewest significant digits that read back as the same number, those digits correctly
rounded, positional from 10^-4 on and with an exponent of at least two digits below. -/
namespace Schemata

/-- The number `digits * 10 ^ exponent`, negated when `negative`. -/
structure Decimal where
  negative : Bool
  digits : Nat
  exponent : Int
deriving DecidableEq

namespace Decimal

/-- The number written as an integer part, a fraction part and a decimal exponent. -/
def ofParts (negative : Bool) (whole fraction : Text) (exponent : Int) : Decimal :=
  ⟨negative, Text.toNat (whole ++ fraction), exponent - fraction.length⟩

/-- The nearest binary number. Exponents so large or so small that only infinity or zero can be
nearest are settled before any power is taken. -/
def toBinary64 (d : Decimal) : Binary64 :=
  if d.digits = 0 then .finite d.negative Magnitude.zero
  else if 309 ≤ d.exponent then .infinity d.negative
  else if d.exponent + (d.digits.log2 + 1) < -324 then .finite d.negative Magnitude.zero
  else if 0 ≤ d.exponent then
    .ofUnits d.negative (d.digits * Nat.pow 10 d.exponent.toNat * Binary64.unitsPerOne) 1
  else .ofUnits d.negative (d.digits * Binary64.unitsPerOne) (Nat.pow 10 (-d.exponent).toNat)

end Decimal

/-- The power of ten of the first significant digit of a positive number of units. Scaled by
10^400 the number is above one, and its integer part has as many digits as the scaled number has
places before the point. -/
def decimalExponent (units : Nat) : Int :=
  (Text.ofNat (units * Nat.pow 10 400 / Binary64.unitsPerOne)).length - 401

/-- A positive number of units rounded to `precision` significant digits: the digits, and the power
of ten of the first of them. `exponent` is that power before rounding, which may carry into one
more place. -/
def significantDigits (units precision : Nat) (exponent : Int) : Nat × Int :=
  let places := precision - 1 - exponent
  let digits :=
    if 0 ≤ places then nearestEven (units * Nat.pow 10 places.toNat) Binary64.unitsPerOne
    else nearestEven units (Binary64.unitsPerOne * Nat.pow 10 (-places).toNat)
  if digits = Nat.pow 10 precision then (Nat.pow 10 (precision - 1), exponent + 1)
  else (digits, exponent)

/-- Whether the digits of a given precision read back as the magnitude they were taken from. -/
def readsBack (size : Magnitude) (precision : Nat) (exponent : Int) : Bool :=
  let (digits, first) := significantDigits size.units precision exponent
  Decimal.toBinary64 ⟨false, digits, first - (precision - 1)⟩ == .finite false size

/-- The fewest significant digits, at most seventeen, that read back. -/
def shortestPrecision (size : Magnitude) (exponent : Int) : Nat :=
  ((List.range' 1 16).find? (readsBack size · exponent)).getD 17

/-- Digits with a point after the first `count`, zeros filling up what lies before them. -/
def positional (digits : Text) (exponent : Int) : Text :=
  if exponent < 0 then
    Text.ofString "0." ++ List.replicate (-exponent - 1).toNat 48 ++ digits
  else
    let count := exponent.toNat + 1
    if digits.length ≤ count then digits else digits.take count ++ 46 :: digits.drop count

/-- One digit, a point before any others, and an exponent with sign and two digits or more. -/
def scientific (digits : Text) (exponent : Int) : Text :=
  let mantissa := if digits.length ≤ 1 then digits else digits.take 1 ++ 46 :: digits.drop 1
  mantissa ++ 101 :: (if exponent < 0 then 45 else 43) ::
    Text.padZeros 2 (Text.ofNat exponent.natAbs)

/-- The shortest text of a magnitude that is not an integer below 10^21. -/
def shortestText (size : Magnitude) : Text :=
  let exponent := decimalExponent size.units
  let precision := shortestPrecision size exponent
  let rounded := significantDigits size.units precision exponent
  if -4 ≤ rounded.2 ∧ rounded.2 < precision then positional (Text.ofNat rounded.1) rounded.2
  else scientific (Text.ofNat rounded.1) rounded.2

/-- The text of a number; both zeros are `0`. -/
def Binary64.text : Binary64 → Text
  | nan => Text.ofString "NaN"
  | infinity negative => Text.ofString (if negative then "-Infinity" else "Infinity")
  | finite negative size =>
    if size.units = 0 then Text.ofString "0"
    else
      let magnitude :=
        if size.units % unitsPerOne = 0 ∧ size.units < Nat.pow 10 21 * unitsPerOne then
          Text.ofNat (size.units / unitsPerOne)
        else shortestText size
      if negative then 45 :: magnitude else magnitude

end Schemata

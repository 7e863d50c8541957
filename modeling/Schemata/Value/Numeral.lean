import Schemata.Number.Decimal
import Schemata.Value.Basic

/-! Numerals: texts that denote numbers. An integer that 64 bits hold stays an integer; every other
number is the nearest double. `ofNumeral` reads decimal numbers with optional sign, point and
exponent, unsigned literals in base 16, 8 and 2, and `Infinity`; the empty text is zero and any
other text is not a number. -/
namespace Schemata.Value

/-- The integer that digits denote, or the nearest double if it needs more than 64 bits. -/
def ofDigits (negative : Bool) (digits : Text) : Value :=
  let n : Int := if negative then -(digits.toNat : Int) else digits.toNat
  if Int64.minValue.toInt ≤ n ∧ n ≤ Int64.maxValue.toInt then int (Int64.ofInt n)
  else double (Decimal.ofParts negative digits [] 0).toBinary64

/-- A digit in bases up to 36; letters of either case. -/
def digitValue (b : UInt8) : Nat :=
  if Text.isDigit b then b.toNat - 48 else (Text.lowerByte b).toNat - 87

def isDigitOf (base : Nat) (b : UInt8) : Bool :=
  (Text.isDigit b || (97 ≤ Text.lowerByte b && Text.lowerByte b ≤ 122)) && digitValue b < base

/-- The base that the letter of a literal such as `0x1F` stands for. -/
def baseOfLetter? (b : UInt8) : Option Nat :=
  if Text.lowerByte b = 120 then some 16
  else if Text.lowerByte b = 111 then some 8
  else if Text.lowerByte b = 98 then some 2
  else none

/-- Base and digits of a literal in base 16, 8 or 2. -/
def baseLiteral? : Text → Option (Nat × Text)
  | 48 :: letter :: digits =>
    match baseOfLetter? letter with
    | some base =>
      if !digits.isEmpty && digits.all (isDigitOf base) then some (base, digits) else none
    | none => none
  | _ => none

/-- Digits summed up in binary64, rounded after each digit: an integer up to 2^53 - 1, above it a
double. -/
def ofBaseDigits (base : Nat) (digits : Text) : Value :=
  let sum := digits.foldl
    (fun sum b => (sum.mul (.ofInt base)).add (.ofInt (digitValue b))) (0 : Binary64)
  if sum.le Binary64.maxSafeInteger then int sum.toInt64 else double sum

/-- A sign, if there is one, and the text behind it; whether the sign is a minus. -/
def splitSign : Text → Bool × Text
  | 45 :: t => (true, t)
  | 43 :: t => (false, t)
  | t => (false, t)

/-- The exponent after a mantissa: nothing, or `e` or `E`, an optional sign and digits. -/
def exponent? : Text → Option Int
  | [] => some 0
  | e :: t =>
    let (negative, digits) := splitSign t
    if (e = 101 ∨ e = 69) ∧ digits ≠ [] ∧ digits.all Text.isDigit then
      some (if negative then -(digits.toNat : Int) else digits.toNat)
    else none

/-- An unsigned decimal number that is not an integer numeral: digits, an optional point, digits, an
exponent; a digit must stand before the exponent. -/
def decimal? (negative : Bool) (t : Text) : Option Decimal :=
  let whole := t.takeWhile Text.isDigit
  let rest := t.dropWhile Text.isDigit
  let (fraction, rest) := match Text.skip? 46 rest with
    | some rest => (rest.takeWhile Text.isDigit, rest.dropWhile Text.isDigit)
    | none => ([], rest)
  if whole = [] ∧ fraction = [] then none
  else (exponent? rest).map (Decimal.ofParts negative whole fraction)

/-- The number that a text without blanks at its ends denotes. -/
def ofNumeral (t : Text) : Value :=
  let (negative, unsigned) := splitSign t
  if t = [] then int 0
  else if unsigned = Text.ofString "Infinity" then double (.infinity negative)
  else match baseLiteral? t with
    | some (base, digits) => ofBaseDigits base digits
    | none =>
      if unsigned ≠ [] ∧ unsigned.all Text.isDigit then ofDigits negative unsigned
      else match decimal? negative unsigned with
        | some decimal => double decimal.toBinary64
        | none => double .nan

end Schemata.Value

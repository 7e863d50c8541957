import Schemata.Pattern
import Schemata.Value.Access

/-! Checks that rules make on values. Each has a name, under which a constraint knows at most one
rule, and a message of its own for values that it turns down. Reading a value as something that it
is not is a fault and no answer. -/
namespace Schemata

abbrev DateConverter := Value → Except Fault Binary64

/-- A date is its instant, a number counts milliseconds, a text is read as ISO-8601. -/
def DateConverter.standard : DateConverter
  | .date millis => .ok millis
  | .int n => .ok (Value.ofInt64 n)
  | .double x => .ok x
  | .string s => .ok ((Timestamp.parse? s).getD .nan)
  | v => .error (.noTimestamp v.kind)

inductive Sized where
  | array | set
deriving DecidableEq

inductive Check where
  | minLength (n : Nat)
  | maxLength (n : Nat)
  | exactLength (n : Nat)
  | pattern (pattern : Pattern) (expression : Regex)
  | startsWith (beginning : Text)
  | endsWith (ending : Text)
  | notBlank
  | atLeast (bound : Binary64)
  | atMost (bound : Binary64)
  | positive
  | negative
  | integer
  | floating
  | finite
  | between (low high : Binary64)
  | notBefore (convert : DateConverter) (bound : Binary64)
  | notAfter (convert : DateConverter) (bound : Binary64)
  | minSize (of : Sized) (n : Nat)
  | maxSize (of : Sized) (n : Nat)
  | exactSize (n : Nat)
  | nonempty (of : Sized)
  | required (keys : List Text)

namespace Check

def name : Check → Text
  | minLength _ => Text.ofString "min_len"
  | maxLength _ => Text.ofString "max_len"
  | exactLength _ => Text.ofString "len"
  | pattern .. => Text.ofString "pattern"
  | startsWith _ => Text.ofString "starts_with"
  | endsWith _ => Text.ofString "ends_with"
  | notBlank => Text.ofString "not_empty"
  | atLeast _ | minSize .. => Text.ofString "min"
  | atMost _ | maxSize .. => Text.ofString "max"
  | positive => Text.ofString "positive"
  | negative => Text.ofString "negative"
  | integer => Text.ofString "int"
  | floating => Text.ofString "float"
  | finite => Text.ofString "finite"
  | between .. => Text.ofString "between"
  | notBefore .. => Text.ofString "min_date"
  | notAfter .. => Text.ofString "max_date"
  | exactSize _ => Text.ofString "length"
  | nonempty _ => Text.ofString "nonempty"
  | required _ => Text.ofString "required"

/-- The keys that an object lacks, in order, joined by commas. A comma is put only behind a list
that is not empty so far. -/
def missingKeys (keys : List Text) (v : Value) : Text :=
  keys.foldl (fun missing key =>
    if v.has key then missing
    else (if missing.isEmpty then missing else missing ++ [44, 32]) ++ key) []

/-- Integral and at most 2^53 - 1 from zero. -/
def isSafeInteger : Value → Bool
  | .int n => (Value.ofInt64 n).abs.le Binary64.maxSafeInteger
  | .double x => x.isIntegral && x.abs.le Binary64.maxSafeInteger
  | _ => false

def accepts : Check → Value → Except Fault Bool
  | minLength n, v => do return n ≤ (← v.asString).codePoints
  | maxLength n, v => do return (← v.asString).codePoints ≤ n
  | exactLength n, v => do return (← v.asString).codePoints == n
  | pattern p e, v => do return e.search p.ignoreCase (← v.asString)
  | startsWith beginning, v => do return beginning.isPrefixOf (← v.asString)
  | endsWith ending, v => do return ending.isSuffixOf (← v.asString)
  | notBlank, v => do return !(← v.asString).isBlank
  | atLeast bound, v => do return bound.le (← v.asDouble)
  | atMost bound, v => do return (← v.asDouble).le bound
  | positive, v => do return Binary64.lt 0 (← v.asDouble)
  | negative, v => do return (← v.asDouble).lt 0
  | integer, v => .ok (isSafeInteger v)
  | floating, v => do
    let x ← v.asDouble
    return x.isFinite && !(match v with
      | .int _ => true
      | _ => x.isIntegral)
  | finite, .int _ => .ok true
  | finite, v => do return (← v.asDouble).isFinite
  | between low high, v => do
    let x ← v.asDouble
    return low.le x && x.le high
  | notBefore convert bound, v => do return bound.le (← convert v)
  | notAfter convert bound, v => do return (← convert v).le bound
  | minSize _ n, v => .ok (n ≤ v.size)
  | maxSize _ n, v => .ok (v.size ≤ n)
  | exactSize n, v => .ok (v.size == n)
  | nonempty _, v => .ok (!v.isEmpty)
  | required keys, v => .ok (missingKeys keys v).isEmpty

def message (v : Value) : Check → Text
  | minLength n =>
    Text.ofString "Expect length string length to be greater than or equal to " ++ Text.ofNat n
  | maxLength n =>
    Text.ofString "Expect length string length to be less than or equal to " ++ Text.ofNat n
  | exactLength n =>
    Text.ofString "Expect computed length of the string to equal " ++ Text.ofNat n
  | pattern p _ =>
    Text.ofString "Expect the string to match the corresponding pattern " ++ p.source
  | startsWith beginning => Text.ofString "Expect string value to starts with " ++ beginning
  | endsWith ending => Text.ofString "Expect string value to ends with " ++ ending
  | notBlank => Text.ofString "Attribute must not be empty"
  | atLeast bound =>
    Text.ofString "Expect the value to be greater than or equal to " ++ bound.text
  | atMost bound => Text.ofString "Expect the value to be less than or equal to " ++ bound.text
  | positive => Text.ofString "Expect the value to be a positive number"
  | negative => Text.ofString "Expect the value to be a negative number"
  | integer => Text.ofString "Expect the value to be an integer value"
  | floating => Text.ofString "Expect the value to be a floating point value"
  | finite => Text.ofString "Expect the value to be a finite number"
  | between low high =>
    Text.ofString "Expect the value be less than or equal to " ++ high.text ++
      Text.ofString " and greater than or equal to " ++ low.text
  | notBefore _ bound => Text.ofString "Expects date to be after " ++ Timestamp.format bound
  | notAfter _ bound => Text.ofString "Expects date to be before " ++ Timestamp.format bound
  | minSize .array n =>
    Text.ofString "Expects the array length to contains at least " ++ Text.ofNat n ++
      Text.ofString " element"
  | maxSize .array n =>
    Text.ofString "Expects the array length to contains at most " ++ Text.ofNat n ++
      Text.ofString " element"
  | minSize .set n => Text.ofString "Expects set size to be at least " ++ Text.ofNat n
  | maxSize .set n => Text.ofString "Expects set size to be at most " ++ Text.ofNat n
  | exactSize n => Text.ofString "Expects the array length to equal " ++ Text.ofNat n
  | nonempty .array => Text.ofString "Expects the array to not be empty"
  | nonempty .set => Text.ofString "Expects set to not be empty"
  | required keys => Text.ofString "Missing object properties " ++ missingKeys keys v

end Check
end Schemata

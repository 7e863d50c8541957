import Schemata.Session
import Schemata.Value.Numeral

/-! Coercions: conversions to a target kind that have an answer for every value. A value of the
target kind stays as it is. Only the coercion to symbols needs the session, as it makes a new
symbol. -/
namespace Schemata
namespace Value

mutual

/-- The value as a text, without quotes; the elements of an array are joined by commas, undefined
and null ones left empty. -/
def toText : Value → Text
  | undefined => Text.ofString "undefined"
  | null => Text.ofString "null"
  | bool b => Text.ofString (if b then "true" else "false")
  | int n => Text.ofInt n.toInt
  | double x => x.text
  | string s => s
  | symbol _ description => Text.ofString "Symbol(" ++ description ++ [41]
  | date millis => Timestamp.format millis
  | array items => itemsToText items
  | set _ => Text.ofString "[object Set]"
  | map _ => Text.ofString "[object Map]"
  | object _ => Text.ofString "[object Object]"

def itemsToText : List Value → Text
  | [] => []
  | [v] => if v.isNullish then [] else toText v
  | v :: vs => (if v.isNullish then [] else toText v) ++ 44 :: itemsToText vs

end

/-- The number of a text, a boolean, a date or, by way of its text, an array; not a number for any
other value. -/
def toNumber : Value → Value
  | bool b => int (if b then 1 else 0)
  | int n => int n
  | double x => double x
  | string s => ofNumeral s.trim
  | date millis => double millis
  | array items => ofNumeral (itemsToText items).trim
  | _ => double .nan

/-- The instant of a number or of an ISO-8601 text; an invalid date for any other value. -/
def toDate : Value → Value
  | date millis => date millis
  | int n => date (ofInt64 n)
  | double x => date x
  | string s => date ((Timestamp.parse? s.trim).getD .nan)
  | _ => date .nan

def toArray : Value → Value
  | set items => array items
  | v => v

def toSet : Value → Value
  | array items => ofItems items
  | v => v

/-- An object as a map from its keys. -/
def toMap : Value → Value
  | object fields => ofEntries (fields.map fun (k, v) => (string k, v))
  | v => v

/-- A symbol stays itself; of any other value, a new symbol described by its text. -/
def toSymbol : Value → Run Value
  | symbol identity description => pure (symbol identity description)
  | v => Run.freshSymbol v.toText

end Value

inductive Coercion where
  | string | number | boolean | date | symbol | array | set | map
deriving DecidableEq

def Coercion.apply (c : Coercion) (v : Value) : Run Value :=
  match c with
  | string => pure (.string v.toText)
  | number => pure v.toNumber
  | boolean => pure (.bool v.isTruthy)
  | date => pure v.toDate
  | symbol => v.toSymbol
  | array => pure v.toArray
  | set => pure v.toSet
  | map => pure v.toMap

end Schemata

import Schemata.Fields
import Schemata.Number.Binary64

/-! Untyped values: what schemas read and produce. Undefined, an absent value, is distinct from
null. Objects keep their keys in ascending order; sets and maps keep insertion order and rely on
`eq` to tell elements and keys apart. -/
namespace Schemata

/-- The kinds that users of values tell apart; integers and doubles are both numbers. -/
inductive Kind where
  | undefined | null | boolean | number | string | symbol | date | array | object | map | set
deriving DecidableEq

namespace Kind

def name : Kind → Text
  | undefined => Text.ofString "undefined"
  | null => Text.ofString "null"
  | boolean => Text.ofString "boolean"
  | number => Text.ofString "number"
  | string => Text.ofString "string"
  | symbol => Text.ofString "symbol"
  | date => Text.ofString "date"
  | array => Text.ofString "array"
  | object => Text.ofString "object"
  | map => Text.ofString "map"
  | set => Text.ofString "set"

end Kind

/-- A value. A symbol is told apart by its identity alone; a date holds milliseconds since the
beginning of 1970 and is invalid when that is not a number. -/
inductive Value where
  | undefined
  | null
  | bool (b : Bool)
  | int (n : Int64)
  | double (x : Binary64)
  | string (s : Text)
  | symbol (identity : Nat) (description : Text)
  | date (millis : Binary64)
  | array (items : List Value)
  | set (items : List Value)
  | map (entries : List (Value × Value))
  | object (fields : List (Text × Value))
deriving Inhabited

inductive Form where
  | undefined | null | boolean | integer | double | string | symbol | date | array | object | map | set
deriving DecidableEq

namespace Form

def name : Form → Text
  | undefined => Text.ofString "Undefined"
  | null => Text.ofString "Null"
  | boolean => Text.ofString "Boolean"
  | integer => Text.ofString "Integer"
  | double => Text.ofString "Double"
  | string => Text.ofString "String"
  | symbol => Text.ofString "Symbol"
  | date => Text.ofString "Date"
  | array => Text.ofString "Array"
  | object => Text.ofString "Object"
  | map => Text.ofString "Map"
  | set => Text.ofString "Set"

def kind : Form → Kind
  | undefined => .undefined
  | null => .null
  | boolean => .boolean
  | integer => .number
  | double => .number
  | string => .string
  | symbol => .symbol
  | date => .date
  | array => .array
  | object => .object
  | map => .map
  | set => .set

end Form

namespace Value

def form : Value → Form
  | undefined => .undefined
  | null => .null
  | bool _ => .boolean
  | int _ => .integer
  | double _ => .double
  | string _ => .string
  | symbol .. => .symbol
  | date _ => .date
  | array _ => .array
  | set _ => .set
  | map _ => .map
  | object _ => .object

def kind (v : Value) : Kind := v.form.kind

def isUndefined : Value → Bool
  | undefined => true
  | _ => false

def isNull : Value → Bool
  | null => true
  | _ => false

def isNullish : Value → Bool
  | undefined | null => true
  | _ => false

def isNumber : Value → Bool
  | int _ | double _ => true
  | _ => false

def ofInt64 (n : Int64) : Binary64 := .ofInt n.toInt

/-- The number of elements, entries or fields; zero for what is no container. -/
def size : Value → Nat
  | array items | set items => items.length
  | map entries => entries.length
  | object fields => fields.length
  | _ => 0

def isEmpty (v : Value) : Bool := v.size == 0

/-- Undefined, null, false, zero, not-a-number and the empty text are not truthy. -/
def isTruthy : Value → Bool
  | undefined | null => false
  | bool b => b
  | int n => n != 0
  | double x => !(x.equal 0) && !x.isNaN
  | string s => !s.isEmpty
  | _ => true

/-- Equality of values. Numbers compare by value, an integer with a double after rounding it; dates
that are both invalid are equal; sets are equal when they have the same size and each element of
the first is in the second, and maps likewise with their values, whatever the order. An element
or key of the second is the first operand of the comparisons inside sets and maps. -/
def eq (a b : Value) : Bool :=
  match a, b with
  | undefined, undefined => true
  | null, null => true
  | bool a, bool b => a == b
  | int a, int b => a == b
  | int a, double y => (ofInt64 a).equal y
  | double x, int b => x.equal (ofInt64 b)
  | double x, double y => x.equal y
  | string a, string b => a == b
  | symbol a _, symbol b _ => a == b
  | date x, date y => (x.isNaN && y.isNaN) || x.equal y
  | array xs, array ys =>
    xs.length == ys.length && (xs.zip ys).attach.all fun ⟨(x, y), _⟩ => eq x y
  | set xs, set ys =>
    xs.length == ys.length && xs.attach.all fun ⟨x, _⟩ => ys.attach.any fun ⟨y, _⟩ => eq y x
  | map es, map fs =>
    es.length == fs.length && es.attach.all fun ⟨(k, v), _⟩ =>
      (fs.attach.findSome? fun ⟨(k', v'), _⟩ =>
        if eq k' k then some (eq v' v) else none).getD false
  | object fs, object gs =>
    fs.length == gs.length && (fs.zip gs).attach.all fun ⟨((k, v), (k', v')), _⟩ =>
      k == k' && eq v v'
  | _, _ => false
termination_by sizeOf a + sizeOf b
decreasing_by
  · rename_i h
    have hx := List.sizeOf_lt_of_mem (List.of_mem_zip h).1
    have hy := List.sizeOf_lt_of_mem (List.of_mem_zip h).2
    simp only [array.sizeOf_spec]
    omega
  · rename_i hx hy
    have := List.sizeOf_lt_of_mem hx
    have := List.sizeOf_lt_of_mem hy
    simp only [set.sizeOf_spec]
    omega
  · rename_i hx hy
    have := List.sizeOf_lt_of_mem hx
    have := List.sizeOf_lt_of_mem hy
    simp only [map.sizeOf_spec, Prod.mk.sizeOf_spec] at *
    omega
  · rename_i hx hy _
    have := List.sizeOf_lt_of_mem hx
    have := List.sizeOf_lt_of_mem hy
    simp only [map.sizeOf_spec, Prod.mk.sizeOf_spec] at *
    omega
  · rename_i h
    have hx := List.sizeOf_lt_of_mem (List.of_mem_zip h).1
    have hy := List.sizeOf_lt_of_mem (List.of_mem_zip h).2
    simp only [object.sizeOf_spec, Prod.mk.sizeOf_spec] at *
    omega

def includes : Value → Value → Bool
  | array items, v | set items, v => items.any fun item => eq item v
  | _, _ => false

def entryUnder? (key : Value) (entries : List (Value × Value)) : Option (Value × Value) :=
  entries.find? fun e => eq e.1 key

def hasKey : Value → Value → Bool
  | map entries, key => (entryUnder? key entries).isSome
  | _, _ => false

/-- The value that a map has under `key`; undefined if it has none. -/
def get : Value → Value → Value
  | map entries, key => ((entryUnder? key entries).map Prod.snd).getD undefined
  | _, _ => undefined

def has : Value → Text → Bool
  | object fields, key => Fields.contains key fields
  | _, _ => false

/-- The keys of an object in ascending order; none for any other value. -/
def keys : Value → List Text
  | object fields => Fields.keys fields
  | _ => []

/-- Adds an element behind the others unless an equal one is there. -/
def addItem (items : List Value) (v : Value) : List Value :=
  if items.any (fun item => eq item v) then items else items ++ [v]

/-- Sets the value under `key`: in place if an equal key is there, else behind the other entries. -/
def putEntry (key value : Value) : List (Value × Value) → List (Value × Value)
  | [] => [(key, value)]
  | (k, v) :: rest => if eq k key then (k, value) :: rest else (k, v) :: putEntry key value rest

/-- The set of the items; of equal ones the first stays. -/
def ofItems (items : List Value) : Value := set (items.foldl addItem [])

/-- The map of the entries; a repeated key keeps its place and takes the later value. -/
def ofEntries (entries : List (Value × Value)) : Value :=
  map (entries.foldl (fun all e => putEntry e.1 e.2 all) [])

/-- The object with the given fields; of equal keys the last stays. -/
def ofFields (fields : List (Text × Value)) : Value := object (Fields.ofList fields)

end Value
end Schemata

import Schemata.Timestamp
import Schemata.Number.Decimal
import Schemata.Value.Basic

/-! Printed values. A printed value made of null, booleans, numbers, texts, arrays and objects is a
JSON text; the other forms have a notation of their own. With an indent, the fields of every object
that has any get a line each, and all else stays on its line. -/
namespace Schemata

/-- What a byte is written as inside quotes: seven bytes are escaped, all others stand for
themselves. -/
def Text.escapeByte (b : UInt8) : Text :=
  if b = 34 then [92, 34]
  else if b = 92 then [92, 92]
  else if b = 10 then [92, 110]
  else if b = 13 then [92, 114]
  else if b = 9 then [92, 116]
  else if b = 8 then [92, 98]
  else if b = 12 then [92, 102]
  else [b]

def Text.quote (t : Text) : Text := 34 :: t.flatMap escapeByte ++ [34]

namespace Value

def spaces (n : Nat) : Text := List.replicate n 32

mutual

/-- The printed value; `level` is the column of the line that it stands in. -/
def print (indent level : Nat) : Value → Text
  | undefined => Text.ofString "undefined"
  | null => Text.ofString "null"
  | bool b => Text.ofString (if b then "true" else "false")
  | int n => Text.ofInt n.toInt
  | double x => x.text
  | string s => s.quote
  | symbol _ description => Text.ofString "Symbol(" ++ description ++ [41]
  | date millis => Text.ofString "Date(" ++ (Timestamp.format millis).quote ++ [41]
  | array items => 91 :: printItems indent level items ++ [93]
  | set items => Text.ofString "Set[" ++ printItems indent level items ++ [93]
  | map entries => Text.ofString "Map\x7b" ++ printEntries indent level entries ++ [125]
  | object [] => [123, 125]
  | object (field :: fields) =>
    if indent = 0 then
      123 :: printFields indent level (field :: fields) ++ [125]
    else
      [123, 10] ++ printLines indent level (field :: fields) ++ [10] ++ spaces level ++ [125]

def printItems (indent level : Nat) : List Value → Text
  | [] => []
  | [v] => print indent level v
  | v :: vs => print indent level v ++ 44 :: printItems indent level vs

/-- Entries as key, colon and value, with commas between them. -/
def printEntries (indent level : Nat) : List (Value × Value) → Text
  | [] => []
  | [(k, v)] => print indent level k ++ 58 :: print indent level v
  | (k, v) :: es =>
    print indent level k ++ 58 :: print indent level v ++ 44 :: printEntries indent level es

def printFields (indent level : Nat) : List (Text × Value) → Text
  | [] => []
  | [(k, v)] => k.quote ++ 58 :: print indent level v
  | (k, v) :: fs => k.quote ++ 58 :: print indent level v ++ 44 :: printFields indent level fs

/-- Fields on a line each, one indent further in. -/
def printLines (indent level : Nat) : List (Text × Value) → Text
  | [] => []
  | [(k, v)] =>
    spaces (level + indent) ++ k.quote ++ [58, 32] ++ print indent (level + indent) v
  | (k, v) :: fs =>
    spaces (level + indent) ++ k.quote ++ [58, 32] ++ print indent (level + indent) v ++
      [44, 10] ++ printLines indent level fs

end

def dump (v : Value) : Text := print 0 0 v

/-- Like `dump`, but a text stands for itself, without quotes. -/
def text : Value → Text
  | string s => s
  | v => v.dump

mutual

/-- Whether an object with fields is the value or lies inside it. -/
def hasFields : Value → Bool
  | array items | set items => anyHasFields items
  | map entries => anyEntryHasFields entries
  | object fields => !fields.isEmpty
  | _ => false

def anyHasFields : List Value → Bool
  | [] => false
  | v :: vs => hasFields v || anyHasFields vs

def anyEntryHasFields : List (Value × Value) → Bool
  | [] => false
  | (k, v) :: es => hasFields k || hasFields v || anyEntryHasFields es

end

end Value
end Schemata

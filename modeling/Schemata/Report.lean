import Schemata.Value.Printer

/-! Reports of error payloads. A payload nests messages: arrays hold messages side by side, objects
name the place of what they hold by a key, maps by an entry, whose two errors are those of its key
and of its value. A report lists every message with the path of its place. -/
namespace Schemata

/-- One message and the path of its place, empty at the top. -/
structure Report.Entry where
  path : Text
  message : Text
deriving DecidableEq

namespace Report

/-- A key of a payload as path segments: every dot becomes a slash. -/
def segment (key : Text) : Text := key.map fun b => if b = 46 then 47 else b

/-- One path behind another; the empty path has no slash behind it. -/
def join (base path : Text) : Text := if base.isEmpty then path else base ++ 47 :: path

mutual

/-- The entries of a payload that lies at `path`. -/
def entriesAt (path : Text) : Value → List Entry
  | .undefined | .null => []
  | .array items => itemsAt path items
  | .object fields => fieldsAt path fields
  | .map entries => mapAt path entries
  | v => [⟨path, v.text⟩]

def itemsAt (path : Text) : List Value → List Entry
  | [] => []
  | v :: vs => entriesAt path v ++ itemsAt path vs

def fieldsAt (path : Text) : List (Text × Value) → List Entry
  | [] => []
  | (k, v) :: fs => entriesAt (join path (segment k)) v ++ fieldsAt path fs

def mapAt (path : Text) : List (Value × Value) → List Entry
  | [] => []
  | (k, v) :: es =>
    let place := join path k.text
    (match v with
      | .array [inKey, inValue] =>
        entriesAt (join place (Text.ofString "key")) inKey ++
          entriesAt (join place (Text.ofString "value")) inValue
      | v => entriesAt place v) ++ mapAt path es

end

def entries (errors : Value) : List Entry := entriesAt [] errors

/-- An entry as `path: message`, or the message alone at the top. -/
def Entry.line (e : Entry) : Text :=
  if e.path.isEmpty then e.message else e.path ++ [58, 32] ++ e.message

def format (errors : Value) : Text := [10].intercalate ((entries errors).map Entry.line)

/-- What a rejected input is reported with: the schema's description, if any, and the lines. -/
def rejection (errors : Value) (description : Option Text) : Text :=
  let title := match description with
    | some d => Text.ofString "Failed parsing " ++ d ++ Text.ofString " input"
    | none => Text.ofString "Failed parsing input"
  let details := format errors
  if details.isEmpty then title else title ++ 10 :: details

end Report
end Schemata

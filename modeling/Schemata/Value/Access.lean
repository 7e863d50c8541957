import Schemata.Fault

/-! Reading values as what they must be. Every reader here says no by a fault; the readers that have
an answer for every value are in the basic module. -/
namespace Schemata.Value

def asBool : Value → Except Fault Bool
  | bool b => .ok b
  | v => .error (.notTakenAs .bool v.form)

/-- An integer, or a double cut toward zero. -/
def asInt : Value → Except Fault Int64
  | int n => .ok n
  | double x => .ok x.toInt64
  | v => .error (.notTakenAs .int v.form)

/-- A double, or the double nearest to an integer. -/
def asDouble : Value → Except Fault Binary64
  | int n => .ok (ofInt64 n)
  | double x => .ok x
  | v => .error (.notTakenAs .double v.form)

def asString : Value → Except Fault Text
  | string s => .ok s
  | v => .error (.notTakenAs .string v.form)

def asDate : Value → Except Fault Binary64
  | date millis => .ok millis
  | v => .error (.notTakenAs .date v.form)

def symbolIdentity : Value → Except Fault Nat
  | symbol identity _ => .ok identity
  | v => .error (.notTakenAs .symbol v.form)

def symbolDescription : Value → Except Fault Text
  | symbol _ description => .ok description
  | v => .error (.notTakenAs .symbol v.form)

/-- The field of an object; what is no object has no keys to offer. -/
def atKey (v : Value) (key : Text) : Except Fault Value :=
  match v with
  | object fields =>
    match Fields.find? key fields with
    | some child => .ok child
    | none => .error (.missingKey key (Fields.keys fields))
  | _ => .error (.missingKey key [])

def fields : Value → Except Fault (List (Text × Value))
  | object fields => .ok fields
  | v => .error (.noFields v.form)

def elements : Value → Except Fault (List Value)
  | array items | set items => .ok items
  | v => .error (.notContainer .list v.form)

def entries : Value → Except Fault (List (Value × Value))
  | map entries => .ok entries
  | v => .error (.notContainer .map v.form)

/-- The element of an array or a set at an index from zero. -/
def atIndex (v : Value) (index : Int) : Except Fault Value := do
  let items ← v.elements
  if index < 0 then .error .negativeIndex
  else match items[index.toNat]? with
    | some item => .ok item
    | none => .error .indexOutOfRange

/-- The printed value with an indent. Fields cannot be indented by less than nothing. -/
def dumpIndented (v : Value) (indent : Int) : Except Fault Text :=
  if indent < 0 ∧ v.hasFields then .error .negativeIndent else .ok (print indent.toNat 0 v)

end Schemata.Value

import Schemata.Value.Access

/-! Changing a value in place. An edit gives its outcome and the value that is there afterwards,
also when it fails: some edits turn an undefined value into a container before they find a fault.
The edits that reach into a value run an edit of the part and put the changed part back. -/
namespace Schemata

/-- A change in place: from the value before, the outcome and the value after. -/
def Edit (α : Type) := Value → Except Fault α × Value

namespace Edit

def replace (new : Value) : Edit Unit := fun _ => (.ok (), new)

def current : Edit Value := fun v => (.ok v, v)

/-- Edits the field under a key that must be there. -/
def inKey (key : Text) (edit : Edit α) : Edit α
  | .object fields =>
    match Fields.find? key fields with
    | some child =>
      let (outcome, child) := edit child
      (outcome, .object (Fields.insert key child fields))
    | none => (.error (.missingKey key (Fields.keys fields)), .object fields)
  | v => (.error (.missingKey key []), v)

/-- Edits the field under a key. What is no object becomes an empty one first, and a field that is
not there starts as undefined. -/
def inField (key : Text) (edit : Edit α) : Edit α := fun v =>
  let fields := match v with
    | .object fields => fields
    | _ => []
  let (outcome, child) := edit ((Fields.find? key fields).getD .undefined)
  (outcome, .object (Fields.insert key child fields))

/-- Edits the element of an array or a set at an index that must be there. -/
def inIndex (index : Int) (edit : Edit α) : Edit α := fun v =>
  match v.atIndex index with
  | .error fault => (.error fault, v)
  | .ok item =>
    let (outcome, item) := edit item
    (outcome, match v with
      | .array items => .array (items.set index.toNat item)
      | .set items => .set (items.set index.toNat item)
      | v => v)

/-- Items with undefined ones put behind until there are `length`. -/
def grow (items : List Value) (length : Nat) : List Value :=
  items ++ List.replicate (length - items.length) .undefined

/-- Edits an element of a list that has grown far enough to have it. -/
def inGrown (items : List Value) (index : Nat) (edit : Edit α) : Except Fault α × Value :=
  let (outcome, item) := edit (items[index]?.getD .undefined)
  (outcome, .array ((grow items (index + 1)).set index item))

/-- Edits the element of an array at any index from zero; the array grows to have it. An undefined
value becomes an empty array first, also if the index is then refused. -/
def inSlot (index : Int) (edit : Edit α) : Edit α := fun v =>
  match v with
  | .undefined => if index < 0 then (.error .negativeSlot, .array []) else inGrown [] index.toNat edit
  | .array items =>
    if index < 0 then (.error .negativeSlot, .array items) else inGrown items index.toNat edit
  | v => (.error (.notContainer .list v.form), v)

/-- Drops a field; what is no object has none. -/
def erase (key : Text) : Edit Unit
  | .object fields => (.ok (), .object (Fields.erase key fields))
  | v => (.ok (), v)

/-- Adds an element to an array, which an undefined value becomes. -/
def push (item : Value) : Edit Unit
  | .undefined => (.ok (), .array [item])
  | .array items => (.ok (), .array (items ++ [item]))
  | v => (.error (.notContainer .array v.form), v)

/-- Adds an element to a set, which an undefined value becomes; whether it was not there before. -/
def add (item : Value) : Edit Bool
  | .undefined => (.ok true, .set [item])
  | .set items => (.ok (!Value.includes (.set items) item), .set (Value.addItem items item))
  | v => (.error (.notContainer .set v.form), v)

/-- Sets an entry of a map, which an undefined value becomes. -/
def put (key value : Value) : Edit Unit
  | .undefined => (.ok (), .map [(key, value)])
  | .map entries => (.ok (), .map (Value.putEntry key value entries))
  | v => (.error (.notContainer .map v.form), v)

end Edit
end Schemata

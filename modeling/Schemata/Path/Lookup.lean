import Schemata.Path.Basic
import Schemata.Value.Edit

/-! Reading and writing at a path. Reading answers undefined wherever a step leads nowhere, and a
key that is literally the whole path comes before its steps. Writing creates objects for keys and
arrays for indices on its way; an index into an object is its decimal text as a key. -/
namespace Schemata

/-- The value one step further; undefined if the step leads nowhere. -/
def Value.step (v : Value) : Path.Step → Value
  | .key name =>
    match v with
    | .object fields => (Fields.find? name fields).getD .undefined
    | .map _ => v.get (.string name)
    | _ => .undefined
  | .index n =>
    match v with
    | .array items | .set items => items[n]?.getD .undefined
    | .object fields => (Fields.find? (Text.ofNat n) fields).getD .undefined
    | .map _ =>
      if v.hasKey (.int (Int64.ofNat n)) then v.get (.int (Int64.ofNat n))
      else v.get (.string (Text.ofNat n))
    | _ => .undefined

def Value.follow (v : Value) : List Path.Step → Value
  | [] => v
  | step :: steps =>
    let next := v.step step
    if next.isUndefined then .undefined else next.follow steps

def Value.lookup (v : Value) (path : Text) : Except Fault Value :=
  match v with
  | .object fields =>
    match Fields.find? path fields with
    | some child => .ok child
    | none => (Path.parse path).map v.follow
  | _ => (Path.parse path).map v.follow

namespace Edit

/-- Writes behind the steps that remain of `path`. -/
def assignSteps (path : Text) (new : Value) : List Path.Step → Edit Unit
  | [] => replace new
  | .key name :: steps => fun v =>
    match v with
    | .object _ | .undefined => inField name (assignSteps path new steps) v
    | _ => (.error (.keyIntoKind name path v.kind), v)
  | .index n :: steps => fun v =>
    match v with
    | .object _ => inField (Text.ofNat n) (assignSteps path new steps) v
    | .array _ | .undefined => inSlot n (assignSteps path new steps) v
    | _ => (.error (.indexIntoKind n path v.kind), v)

def assign (path : Text) (new : Value) : Edit Unit := fun v =>
  match Path.parse path with
  | .error fault => (.error fault, v)
  | .ok steps => assignSteps path new steps v

end Edit
end Schemata

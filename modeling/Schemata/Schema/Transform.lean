import Schemata.Path.Lookup
import Schemata.Schema.Outcome
import Schemata.Schema.Shape

/-! Transforms of containers. Each passes all parts of its input to the parsers of the parts, goes
on after a failure, and reports all failures at once: elements under `*.` and their index,
properties under the root and their input key, entries of a map under their own key. Undefined and
null become an empty container. -/
namespace Schemata.Transform

/-- The outcome for an input that is no container of the expected kind. -/
def unsupported (expected : Kind) (input : Value) : Outcome :=
  .failure (.array [.string (Text.ofString "Value must be of type " ++ expected.name ++
    Text.ofString ", " ++ input.kind.name ++ Text.ofString " given")])

def elementKey (index : Nat) : Text := Text.ofString "*." ++ Text.ofNat index

/-- Parses elements from an index on: the results of those accepted, and the errors of the others.
-/
def elements (element : Parser) : Nat → List Value → Run (List Value × Fields Value)
  | _, [] => return ([], [])
  | index, v :: vs => do
    let reply ← element v
    let (results, errors) ← elements element (index + 1) vs
    match reply with
    | .accepted data => return (data :: results, errors)
    | .rejected problem => return (results, Fields.insert (elementKey index) problem errors)

/-- The line that tells how many parts failed. -/
def failures (what : Text) (count : Nat) (parts : String) : Text :=
  what ++ [58, 32] ++ Text.ofNat count ++ Text.ofString " invalid " ++ Text.ofString parts

/-- An array or a set into a container of one of these kinds, built from the results. -/
def list (kind : Kind) (build : List Value → Value) (element : Parser) : Transform := fun input =>
  let parse (items : List Value) : Run Outcome := do
    let (results, errors) ← elements element 0 items
    if errors.isEmpty then return .success (build results)
    else
      Run.trace (failures kind.name errors.length "items")
      return .failure (.object errors)
  match input with
  | .undefined | .null => return .success (build [])
  | .array items | .set items => parse items
  | _ => return unsupported kind input

def array (element : Parser) : Transform := list .array Value.array element

/-- An array or a set into a set; of equal results the first stays. -/
def set (element : Parser) : Transform := list .set Value.ofItems element

/-- What failed in an entry: the errors of its key and of its value, undefined on the side that
succeeded; nothing if both did. -/
def entryErrors? : Reply → Reply → Option Value
  | .accepted _, .accepted _ => none
  | .rejected k, .accepted _ => some (.array [k, .undefined])
  | .accepted _, .rejected v => some (.array [.undefined, v])
  | .rejected k, .rejected v => some (.array [k, v])

/-- Parses entries: the entries that both parsers accepted, parsed, and the errors of the others
under the keys as given. -/
def entries (key value : Parser) :
    List (Value × Value) → Run (List (Value × Value) × List (Value × Value))
  | [] => return ([], [])
  | (k, v) :: rest => do
    let keyReply ← key k
    let valueReply ← value v
    let (results, errors) ← entries key value rest
    match keyReply, valueReply with
    | .accepted k', .accepted v' => return ((k', v') :: results, errors)
    | _, _ =>
      match entryErrors? keyReply valueReply with
      | some problem => return (results, (k, problem) :: errors)
      | none => return (results, errors)

/-- A map, or an object by its keys, into a map. -/
def map (key value : Parser) : Transform := fun input =>
  let parse (all : List (Value × Value)) : Run Outcome := do
    let (results, errors) ← entries key value all
    if errors.isEmpty then return .success (Value.ofEntries results)
    else
      let errors := Value.ofEntries errors
      Run.trace (failures Kind.map.name errors.size "entries")
      return .failure errors
  match input with
  | .undefined | .null => return .success (Value.ofEntries [])
  | .map all => parse all
  | .object fields => parse (fields.map fun (k, v) => (.string k, v))
  | _ => return unsupported .map input

/-- The root that the errors of an object's properties lie under unless another is chosen. -/
def defaultRoot : Text := Text.ofString "root$"

/-- Parses the properties of an input one by one. Results are written into `data` at their output
keys, undefined ones left out; errors are put under the root and the input key. -/
def properties (root : Text) (input : Value) :
    List (Property Parser) → Value → Fields Value → Run (Value × Fields Value)
  | [], data, errors => return (data, errors)
  | p :: rest, data, errors => do
    let part ← Run.lift (input.lookup p.input)
    match ← p.node part with
    | .rejected problem =>
      properties root input rest data (Fields.insert (root ++ 46 :: p.input) problem errors)
    | .accepted .undefined => properties root input rest data errors
    | .accepted result =>
      let (written, data) := Edit.assign p.output result data
      Run.lift written
      properties root input rest data errors

/-- Any input, read at the input keys, into an object. -/
def object (all : List (Property Parser)) (root : Text) : Transform := fun input => do
  let (data, errors) ← properties root input all (.object []) []
  if errors.isEmpty then return .success data
  else
    Run.trace (failures root errors.length "properties")
    return .failure (.object errors)

end Schemata.Transform

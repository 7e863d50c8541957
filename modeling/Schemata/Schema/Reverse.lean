import Schemata.Schema.Basic

/-! Reverses. The reverse of a schema maps its outputs back to inputs: where a property is read and
where it is written change places, and parts are replaced by their reverses. Leaves and the keys of
maps stay as they are. Reversing keeps definitions, except that an object's rules, which speak of
input keys, are dropped. -/
namespace Schemata.Schema

/-- The definition of an object's reverse: nullability is kept and rules are not. -/
def reverseDefinition (d : Definition) : Definition :=
  let c := Constraint.ofKind .object
  { d with
    constraint :=
      if d.constraint.allowsUndefined then c.nullish
      else if d.constraint.allowsNull then c.nullable
      else c }

/-- The remap of reversed properties: outputs under inputs where they differ. -/
def reverseRemap (properties : List (Property α)) : Remap :=
  properties.foldl (fun remap p =>
    if p.input = p.output then remap else Fields.insert p.input p.output remap) []

/-- No property may be read inside the place of another. -/
def checkInputs (properties : List (Property α)) : Except Fault Unit := do
  match ← Shape.nestedKeys? (properties.map Property.input) with
  | some (outer, inner) => throw (.nestedInput outer inner)
  | none => return ()

mutual

def reverse (s : Schema) : Run Schema := do
  Run.trace (s.definition.label ++ Text.ofString ": building reverse type")
  match s with
  | leaf d o => return leaf d o
  | array d _ element => return array d none (← reverse element)
  | set d _ element => return set d none (← reverse element)
  | map d _ key value => return map d none key (← reverse value)
  | object d _ all =>
    Run.lift (checkInputs all)
    let shape ← reverseShape [] all
    Run.lift (objectWith (reverseDefinition d) shape (reverseRemap all))

/-- The reversed nodes of properties by input key. `seen` are the input keys met before, none of
which may be met again. -/
def reverseShape (seen : List Text) : List (Property Schema) → Run (Shape Schema)
  | [] => return []
  | p :: rest => do
    if seen.contains p.input then throw (.sharedInput p.input)
    let node ← reverse p.node
    return (p.input, node) :: (← reverseShape (p.input :: seen) rest)

end

def reverseOfShape (shape : Shape Schema) (remap : Remap) : Run (Shape Schema × Remap) := do
  let all ← Run.lift (shape.properties remap)
  Run.lift (checkInputs all)
  return (← reverseShape [] all, reverseRemap all)

end Schemata.Schema

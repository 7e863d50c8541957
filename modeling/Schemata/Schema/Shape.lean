import Schemata.Path.Basic

/-! Shapes of objects. A shape names the properties of an object with a node for each; a remap says
from which input key a property is read if not from its own name. Together they make up a list of
properties, provided that every key is a path and that no property would be written inside
another. -/
namespace Schemata

/-- A property: where its value goes, where it is read, and the node that it passes. -/
structure Property (α : Type) where
  output : Text
  input : Text
  node : α

abbrev Shape (α : Type) := List (Text × α)

abbrev Remap := Fields Text

namespace Shape

/-- The first name that occurs again behind its first place. -/
def firstRepeated? (seen : List Text) : List Text → Option Text
  | [] => none
  | name :: names =>
    if seen.contains name then some name else firstRepeated? (name :: seen) names

/-- Parses every path of a list, up to the first that is none. -/
def parsePaths : List Text → Except Fault (List (Text × List Path.Step))
  | [] => .ok []
  | key :: keys => do
    let steps ← Path.parse key
    return (key, steps) :: (← parsePaths keys)

/-- Steps that lead to an inner place of where others lead. -/
def isInside (outer inner : List Path.Step) : Bool :=
  outer.length < inner.length && outer.isPrefixOf inner

/-- The first two paths of which the second leads inside the first. -/
def firstNested? (paths : List (Text × List Path.Step)) : Option (Text × Text) :=
  paths.findSome? fun outer =>
    (paths.find? fun inner => isInside outer.2 inner.2).map fun inner => (outer.1, inner.1)

/-- The first two keys of which the second leads inside the first. -/
def nestedKeys? (keys : List Text) : Except Fault (Option (Text × Text)) :=
  (parsePaths keys).map firstNested?

def inputKey (remap : Remap) (name : Text) : Text := (Fields.find? name remap).getD name

/-- The properties in order; their keys must be paths. -/
def entries (remap : Remap) : Shape α → Except Fault (List (Property α))
  | [] => .ok []
  | (name, node) :: shape => do
    let _ ← Path.parse name
    let _ ← Path.parse (inputKey remap name)
    return ⟨name, inputKey remap name, node⟩ :: (← entries remap shape)

def properties (shape : Shape α) (remap : Remap) : Except Fault (List (Property α)) := do
  let names := shape.map Prod.fst
  match firstRepeated? [] names with
  | some name => throw (.duplicateProperty name)
  | none => pure ()
  match (Fields.keys remap).find? fun key => !names.contains key with
  | some key => throw (.unknownProperty key)
  | none => pure ()
  let all ← entries remap shape
  match ← nestedKeys? names with
  | some (outer, inner) => throw (.nestedProperty outer inner)
  | none => return all

end Shape
end Schemata

import Schemata.Coercion
import Schemata.Constraint.Basic
import Schemata.Schema.Transform

/-! Schemas. A node has a definition - a constraint, an optional coercion, an optional description -
and a body that says what its transform does with the parts of an input. Parsing lets nullish values
through where the constraint admits them, then coerces, checks the constraint, and transforms. -/
namespace Schemata

/-- What a node demands of its input before it transforms it. -/
structure Definition where
  constraint : Constraint
  coercion : Option Coercion
  description : Option Text

/-- A schema node. `override`, where there is one, takes the place of the transform that the body
gives; a leaf has none of its own. -/
inductive Schema where
  | leaf (definition : Definition) (override : Option Transform)
  | array (definition : Definition) (override : Option Transform) (element : Schema)
  | set (definition : Definition) (override : Option Transform) (element : Schema)
  | map (definition : Definition) (override : Option Transform) (key value : Schema)
  | object (definition : Definition) (override : Option Transform)
      (properties : List (Property Schema))

namespace Definition

def label (d : Definition) : Text := d.description.getD (Text.ofString "type")

/-- The input as the constraint sees it; undefined and null are not coerced. -/
def coerced (d : Definition) (v : Value) : Run Value :=
  match d.coercion with
  | none => return v
  | some coercion => if v.isNullish then return v else coercion.apply v

def safeParse (d : Definition) (transform : Option Transform) : Parser := fun v => do
  if d.constraint.admits v then
    Run.trace (d.label ++ Text.ofString ": accepted " ++ v.form.name ++ Text.ofString " as is")
    return .accepted v
  let input ← d.coerced v
  let messages ← Run.lift (d.constraint.violations input)
  if !messages.isEmpty then
    let errors := Value.array (messages.map .string)
    Run.trace (d.label ++ Text.ofString ": rejected " ++ input.dump ++ 32 :: errors.dump)
    return .rejected errors
  else if input.isNullish then return .accepted input
  else match transform with
    | none => return .accepted input
    | some transform =>
      let outcome ← transform input
      if outcome.failed then
        Run.trace (d.label ++ Text.ofString ": children failed " ++ outcome.errors.dump)
        return .rejected outcome.errors
      else return .accepted outcome.data

/-- Coercion and transform without the constraint. -/
def rawParse (d : Definition) (transform : Option Transform) (v : Value) : Run Outcome := do
  let input ← d.coerced v
  match transform with
  | none => return .success input
  | some transform => transform input

end Definition

namespace Schema

def definition : Schema → Definition
  | leaf d _ | array d _ _ | set d _ _ | map d _ _ _ | object d _ _ => d

def withDefinition (s : Schema) (d : Definition) : Schema :=
  match s with
  | leaf _ o => leaf d o
  | array _ o element => array d o element
  | set _ o element => set d o element
  | map _ o key value => map d o key value
  | object _ o properties => object d o properties

def withOverride (s : Schema) (transform : Transform) : Schema :=
  match s with
  | leaf d _ => leaf d (some transform)
  | array d _ element => array d (some transform) element
  | set d _ element => set d (some transform) element
  | map d _ key value => map d (some transform) key value
  | object d _ properties => object d (some transform) properties

mutual

/-- Parses an input: the reply is the output or an error payload. -/
def safeParse : Schema → Parser
  | leaf d o => d.safeParse o
  | array d o element => d.safeParse (o.getD (Transform.array (safeParse element)))
  | set d o element => d.safeParse (o.getD (Transform.set (safeParse element)))
  | map d o key value => d.safeParse (o.getD (Transform.map (safeParse key) (safeParse value)))
  | object d o all => d.safeParse (o.getD (Transform.object (parsers all) Transform.defaultRoot))

def parsers : List (Property Schema) → List (Property Parser)
  | [] => []
  | p :: rest => ⟨p.output, p.input, safeParse p.node⟩ :: parsers rest

end

def transform : Schema → Option Transform
  | leaf _ o => o
  | array _ o element => o.getD (Transform.array element.safeParse)
  | set _ o element => o.getD (Transform.set element.safeParse)
  | map _ o key value => o.getD (Transform.map key.safeParse value.safeParse)
  | object _ o all => o.getD (Transform.object (parsers all) Transform.defaultRoot)

/-- Coercion and transform only, the constraint is skipped. -/
def rawParse (s : Schema) (v : Value) : Run Outcome := s.definition.rawParse s.transform v

/-- The output of an accepted input; a rejected one is a fault. -/
def parse (s : Schema) (v : Value) : Run Value := do
  match ← s.safeParse v with
  | .accepted data => return data
  | .rejected errors => throw (.rejected errors s.definition.description)

def accepts (s : Schema) (v : Value) : Run Bool := do
  match ← s.safeParse v with
  | .accepted _ => return true
  | .rejected _ => return false

def isOptional (s : Schema) : Run Bool := s.accepts .undefined

def isNullable (s : Schema) : Run Bool := s.accepts .null

def withConstraint (s : Schema) (c : Constraint) : Schema :=
  s.withDefinition { s.definition with constraint := c }

def nullable (s : Schema) : Schema := s.withConstraint s.definition.constraint.nullable

def nullish (s : Schema) : Schema := s.withConstraint s.definition.constraint.nullish

def describe (s : Schema) (description : Text) : Schema :=
  s.withDefinition { s.definition with description := some description }

/-- What a copy of a node gets in place of the node's own; a coercion of `some none` takes the
coercion away. -/
structure Changes where
  constraint : Option Constraint
  coercion : Option (Option Coercion)
  description : Option Text
  transform : Option Transform

def copy (s : Schema) (changes : Changes) : Schema :=
  let d := s.definition
  let changed := s.withDefinition
    { constraint := changes.constraint.getD d.constraint
      coercion := changes.coercion.getD d.coercion
      description := changes.description.orElse fun _ => d.description }
  match changes.transform with
  | some transform => changed.withOverride transform
  | none => changed

/-! Making nodes. -/

inductive LeafKind where
  | string | number | boolean | symbol | date | null | undefined | any
deriving DecidableEq

namespace LeafKind

/-- What a leaf demands unless told otherwise. Undefined leaves accept null as well. -/
def constraint : LeafKind → Constraint
  | string => .ofKind .string
  | number => .ofKind .number
  | boolean => .ofKind .boolean
  | symbol => .ofKind .symbol
  | date => .ofKind .date
  | null => .ofKind .null
  | undefined => .nullishValue
  | any => .anyValue

/-- The coercion that a leaf is made with when it coerces. -/
def coercion : LeafKind → Option Coercion
  | string => some .string
  | number => some .number
  | boolean => some .boolean
  | symbol => some .symbol
  | date => some .date
  | null | undefined | any => none

end LeafKind

/-- Whether a node coerces, and how it is described. -/
structure Options where
  coerce : Bool
  description : Option Text

def Options.definition (o : Options) (c : Constraint) (coercion : Option Coercion) : Definition :=
  ⟨c, if o.coerce then coercion else none, o.description⟩

def ofLeaf (kind : LeafKind) (c : Constraint) (o : Options) : Schema :=
  leaf (o.definition c kind.coercion) none

def arrayOf (element : Schema) (c : Constraint) (o : Options) : Schema :=
  array (o.definition c (some .array)) none element

def setOf (element : Schema) (c : Constraint) (o : Options) : Schema :=
  set (o.definition c (some .set)) none element

def mapOf (key value : Schema) (c : Constraint) (o : Options) : Schema :=
  map (o.definition c (some .map)) none key value

/-- An object node with a given definition; shape and remap must fit together. -/
def objectWith (d : Definition) (shape : Shape Schema) (remap : Remap) : Except Fault Schema :=
  (shape.properties remap).map (object d none)

/-- Objects are never coerced. -/
def objectOf (shape : Shape Schema) (remap : Remap) (c : Constraint) (description : Option Text) :
    Except Fault Schema :=
  objectWith ⟨c, none, description⟩ shape remap

end Schema
end Schemata

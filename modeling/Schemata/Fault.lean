import Schemata.Report

/-! Everything that can go wrong, by cause. `Fault.message` is the only place with wordings, and
`Fault.category` sorts the causes by who is to blame: a malformed argument, an index or key that
is not there, a use that does not fit the state of a value, or the data itself. -/
namespace Schemata

/-- What a JSON text was found not to have at some place. -/
inductive Json.Problem where
  | unexpectedToken
  | expectedKey
  | expected (b : UInt8)
  | extraData
  | unterminatedString
  | unterminatedEscape
  | unsupportedEscape
  | unterminatedUnicode
  | invalidUnicode
  | invalidNumber
deriving DecidableEq

namespace Json.Problem

def message : Problem → Text
  | unexpectedToken => Text.ofString "unexpected token while parsing value"
  | expectedKey => Text.ofString "expected string key"
  | expected b => Text.ofString "expected '" ++ [b, 39]
  | extraData => Text.ofString "extra data after JSON value"
  | unterminatedString => Text.ofString "unterminated string"
  | unterminatedEscape => Text.ofString "unterminated escape"
  | unsupportedEscape => Text.ofString "unsupported escape sequence"
  | unterminatedUnicode => Text.ofString "unterminated unicode escape"
  | invalidUnicode => Text.ofString "invalid unicode escape"
  | invalidNumber => Text.ofString "invalid number"

end Json.Problem

inductive Wanted where
  | bool | int | double | string | date | symbol
deriving DecidableEq

def Wanted.name : Wanted → Text
  | bool => Text.ofString "a bool"
  | int => Text.ofString "an int"
  | double => Text.ofString "a double"
  | string => Text.ofString "a string"
  | date => Text.ofString "a date"
  | symbol => Text.ofString "a symbol"

/-- The containers that operations of values ask for. -/
inductive Container where
  | list | array | set | map
deriving DecidableEq

def Container.name : Container → Text
  | list => Text.ofString "a list"
  | array => Text.ofString "an array"
  | set => Text.ofString "a set"
  | map => Text.ofString "a map"

inductive Fault where
  | notTakenAs (wanted : Wanted) (found : Form)
  | notContainer (wanted : Container) (found : Form)
  | noFields (found : Form)
  | missingKey (key : Text) (available : List Text)
  | indexOutOfRange
  | negativeIndex
  | negativeSlot
  | negativeIndent
  | emptyPath
  | leadingDot
  | trailingDot
  | unclosedBracket (path : Text)
  | malformedIndex (inner : Text)
  | emptySegment (path : Text)
  | stepNotKey
  | stepNotIndex
  | keyIntoKind (key path : Text) (kind : Kind)
  | indexIntoKind (index : Nat) (path : Text) (kind : Kind)
  | malformedJson (problem : Json.Problem) (line column : Nat)
  | emptyPredicate
  | invalidPattern (source : Text)
  | invalidDateBound (text : Text)
  | unusableDateBound (kind : Kind)
  | noTimestamp (kind : Kind)
  | duplicateProperty (name : Text)
  | unknownProperty (name : Text)
  | nestedProperty (outer inner : Text)
  | nestedInput (outer inner : Text)
  | sharedInput (key : Text)
  | rejected (errors : Value) (description : Option Text)

/-- Who is to blame for a fault. -/
inductive Category where
  | invalidArgument | outOfRange | lengthError | logicError | runtimeError | parseError
deriving DecidableEq

namespace Fault

def category : Fault → Category
  | notTakenAs .. | malformedJson .. => .runtimeError
  | notContainer .. | noFields _ | negativeSlot | stepNotKey | stepNotIndex | keyIntoKind ..
  | indexIntoKind .. | nestedInput .. | sharedInput _ => .logicError
  | missingKey .. | indexOutOfRange | negativeIndex => .outOfRange
  | negativeIndent => .lengthError
  | emptyPath | leadingDot | trailingDot | unclosedBracket _ | malformedIndex _ | emptySegment _
  | emptyPredicate | invalidPattern _ | invalidDateBound _ | unusableDateBound _ | noTimestamp _
  | duplicateProperty _ | unknownProperty _ | nestedProperty .. => .invalidArgument
  | rejected .. => .parseError

def named (t : Text) : Text := 39 :: t ++ [39]

def message : Fault → Text
  | notTakenAs wanted found =>
    Text.ofString "not " ++ wanted.name ++ Text.ofString ": " ++ found.name
  | notContainer wanted found =>
    Text.ofString "Not " ++ wanted.name ++ Text.ofString ": " ++ found.name
  | noFields found => Text.ofString "Cannot get items of non-object type " ++ found.name
  | missingKey key available =>
    Text.ofString "Could not find key <" ++ key ++ Text.ofString "> available options are: " ++
      [44].intercalate (available.map fun k => 34 :: k ++ [34])
  | indexOutOfRange => Text.ofString "index out of range"
  | negativeIndex | negativeSlot => Text.ofString "Negative index"
  | negativeIndent => Text.ofString "basic_string::_M_create"
  | emptyPath => Text.ofString "Path cannot be empty"
  | leadingDot => Text.ofString "Path cannot start with ."
  | trailingDot => Text.ofString "Path cannot end with ."
  | unclosedBracket path => Text.ofString "Unclosed '[' in path " ++ named path
  | malformedIndex inner =>
    Text.ofString "Array indices must be non-negative integers, got " ++ named inner
  | emptySegment path => Text.ofString "Path cannot contain empty segments: " ++ named path
  | stepNotKey => Text.ofString "PathToken is not a key"
  | stepNotIndex => Text.ofString "PathToken is not an index"
  | keyIntoKind key path kind =>
    Text.ofString "Cannot assign key " ++ named key ++ Text.ofString " of path " ++ named path ++
      Text.ofString " into a " ++ kind.name
  | indexIntoKind index path kind =>
    Text.ofString "Cannot assign index " ++ Text.ofNat index ++ Text.ofString " of path " ++
      named path ++ Text.ofString " into a " ++ kind.name
  | malformedJson problem line column =>
    problem.message ++ Text.ofString " (line " ++ Text.ofNat line ++ Text.ofString ", column " ++
      Text.ofNat column ++ [41]
  | emptyPredicate => Text.ofString "Constraint predicate must not be empty"
  | invalidPattern source => Text.ofString "Invalid pattern " ++ named source
  | invalidDateBound t => Text.ofString "Invalid date bound: " ++ t
  | unusableDateBound kind =>
    Text.ofString "Date bound must be a date, a number or an ISO string, " ++ kind.name ++
      Text.ofString " given"
  | noTimestamp kind => Text.ofString "No timestamp in a value of kind " ++ kind.name
  | duplicateProperty name =>
    Text.ofString "Duplicate property " ++ named name ++ Text.ofString " in shape"
  | unknownProperty name =>
    Text.ofString "Remapped property " ++ named name ++ Text.ofString " is not part of the shape"
  | nestedProperty outer inner =>
    Text.ofString "Property " ++ named inner ++
      Text.ofString " would be written inside property " ++ named outer
  | nestedInput outer inner =>
    Text.ofString "Cannot reverse shape: input key " ++ named inner ++
      Text.ofString " lies inside input key " ++ named outer
  | sharedInput key =>
    Text.ofString "Cannot reverse shape: input key " ++ named key ++
      Text.ofString " is read by more than one property"
  | rejected errors description => Report.rejection errors description

end Fault
end Schemata

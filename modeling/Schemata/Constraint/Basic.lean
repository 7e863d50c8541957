import Schemata.Constraint.Check

/-! Constraints: what a schema node demands of its input. A constraint expects a kind or what a
predicate accepts, may let null or both null and undefined through unchecked, and keeps rules in the
order in which their names were first registered. -/
namespace Schemata

/-- A check with a message; an empty message stands for the check's own. -/
structure Rule where
  check : Check
  message : Text

namespace Rule

def name (r : Rule) : Text := r.check.name

/-- The message for a value that the rule turns down. -/
def violation? (r : Rule) (v : Value) : Except Fault (Option Text) := do
  if ← r.check.accepts v then return none
  else return some (if r.message.isEmpty then r.check.message v else r.message)

end Rule

/-- What a constraint accepts before any rule is asked. -/
inductive Expectation where
  | kind (k : Kind)
  | predicate (accepts : Value → Bool)

structure Constraint where
  expected : Expectation
  convert : DateConverter
  rules : List Rule
  allowsNull : Bool
  allowsUndefined : Bool

/-- A rule that is asked for. Patterns and date bounds may turn out to be no good. -/
inductive Rule.Request where
  | check (check : Check)
  | pattern (pattern : Pattern)
  | notBefore (bound : Value)
  | notAfter (bound : Value)

namespace Constraint

def ofExpectation (expected : Expectation) : Constraint :=
  ⟨expected, .standard, [], false, false⟩

def ofKind (k : Kind) : Constraint := ofExpectation (.kind k)

/-- Accepts what a predicate accepts; there must be one. -/
def ofPredicate : Option (Value → Bool) → Except Fault Constraint
  | some accepts => .ok (ofExpectation (.predicate accepts))
  | none => .error .emptyPredicate

def anyValue : Constraint := ofExpectation (.predicate fun _ => true)

def nullishValue : Constraint := ofExpectation (.predicate Value.isNullish)

/-- Accepts dates and places them in time in a way of its own. -/
def ofDates (convert : DateConverter) : Constraint := { ofKind .date with convert := convert }

def nullable (c : Constraint) : Constraint := { c with allowsNull := true }

def nullish (c : Constraint) : Constraint := { c with allowsNull := true, allowsUndefined := true }

def ruleNames (c : Constraint) : List Text := c.rules.map Rule.name

/-- Puts a rule in the place of the rule of its name, or behind all others. -/
def setRule (rule : Rule) : List Rule → List Rule
  | [] => [rule]
  | r :: rules => if r.name = rule.name then rule :: rules else r :: setRule rule rules

/-- The instant of a date, a number of milliseconds or an ISO-8601 text. -/
def dateBound : Value → Except Fault Binary64
  | .date millis => .ok millis
  | .int n => .ok (Value.ofInt64 n)
  | .double x => .ok x
  | .string s =>
    match Timestamp.parse? s with
    | some millis => .ok millis
    | none => .error (.invalidDateBound s)
  | v => .error (.unusableDateBound v.kind)

def checkOf (convert : DateConverter) : Rule.Request → Except Fault Check
  | .check check => .ok check
  | .pattern p => p.compile.map (.pattern p)
  | .notBefore bound => (dateBound bound).map (.notBefore convert)
  | .notAfter bound => (dateBound bound).map (.notAfter convert)

def register (c : Constraint) (request : Rule.Request) (message : Text) :
    Except Fault Constraint :=
  (checkOf c.convert request).map fun check => { c with rules := setRule ⟨check, message⟩ c.rules }

def admits (c : Constraint) (v : Value) : Bool :=
  (c.allowsNull && v.isNull) || (c.allowsUndefined && v.isNullish)

def mismatch? (c : Constraint) (v : Value) : Option Text :=
  match c.expected with
  | .kind k =>
    if v.kind = k then none
    else some (Text.ofString "Value must be of type " ++ k.name ++ Text.ofString ", " ++
      v.kind.name ++ Text.ofString " given")
  | .predicate accepts =>
    if accepts v then none else some (Text.ofString "Unsupported type " ++ v.kind.name)

/-- The messages of the rules that turn a value down, in order. -/
def ruleViolations (v : Value) : List Rule → Except Fault (List Text)
  | [] => .ok []
  | r :: rules => do
    let message ← r.violation? v
    let messages ← ruleViolations v rules
    return message.toList ++ messages

/-- Everything that a constraint has to say against a value. A value of the wrong kind is not shown
to the rules. -/
def violations (c : Constraint) (v : Value) : Except Fault (List Text) :=
  if c.admits v then .ok []
  else match c.mismatch? v with
    | some message => .ok [message]
    | none => ruleViolations v c.rules

end Constraint

/-- A constraint together with what it had to say last. -/
structure Checker where
  constraint : Constraint
  errors : List Text

namespace Checker

def ofConstraint (c : Constraint) : Checker := ⟨c, []⟩

/-- Checks a value; earlier messages are forgotten. -/
def apply (c : Checker) (v : Value) : Except Fault Checker :=
  (c.constraint.violations v).map fun errors => { c with errors := errors }

def nullable (c : Checker) : Checker := { c with constraint := c.constraint.nullable }

def nullish (c : Checker) : Checker := { c with constraint := c.constraint.nullish }

def register (c : Checker) (request : Rule.Request) (message : Text) : Except Fault Checker :=
  (c.constraint.register request message).map fun constraint => { c with constraint := constraint }

end Checker
end Schemata

import Schemata.Session

/-! Results of parsing. A transform ends in an outcome, which may carry both data and errors; a
schema ends in a reply, which is one or the other. -/
namespace Schemata

structure Outcome where
  data : Value
  failed : Bool
  errors : Value
  aborted : Bool

namespace Outcome

/-- An outcome that failed without saying why has an empty list of errors. -/
def of (data : Value) (failed : Bool) (errors : Value) (aborted : Bool) : Outcome :=
  ⟨data, failed, if failed && errors.isUndefined then .array [] else errors, aborted⟩

def success (data : Value) : Outcome := of data false .undefined false

def failure (errors : Value) : Outcome := of .undefined true errors false

end Outcome

inductive Reply where
  | accepted (data : Value)
  | rejected (errors : Value)

abbrev Parser := Value → Run Reply

/-- A way to turn inputs that a constraint let through into outputs. -/
abbrev Transform := Value → Run Outcome

end Schemata

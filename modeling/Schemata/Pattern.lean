import Schemata.Fault
import Schemata.Regex.Matcher

/-! Patterns: sources of regular expressions with the choice to ignore case, and the patterns that
come ready-made. A pattern matches a text in which it is found anywhere; the ready-made ones are
anchored at both ends. -/
namespace Schemata

structure Pattern where
  source : Text
  ignoreCase : Bool
deriving DecidableEq

namespace Pattern

def compile (p : Pattern) : Except Fault Regex :=
  match Regex.parse? p.ignoreCase p.source with
  | some e => .ok e
  | none => .error (.invalidPattern p.source)

/-- Collision-resistant identifiers: `c` and at least eight bytes without blanks and dashes. -/
def cuid : Pattern := ⟨Text.ofString "^c[^\\s-]\x7b8,\x7d$", true⟩

/-- Universally unique identifiers of versions 1 to 5, and the nil one. -/
def uuid : Pattern :=
  ⟨Text.ofString "^([a-f0-9]\x7b8\x7d-[a-f0-9]\x7b4\x7d-[1-5][a-f0-9]\x7b3\x7d-[a-f0-9]\x7b4\x7d-" ++
    Text.ofString "[a-f0-9]\x7b12\x7d|00000000-0000-0000-0000-000000000000)$", true⟩

/-- Mail addresses with a dotted or quoted local part and a domain of at least two labels. -/
def email : Pattern :=
  ⟨Text.ofString "^(([^<>()\\[\\].,;:\\s@\"]+(\\.[^<>()\\[\\].,;:\\s@\"]+)*)|(\".+\"))@" ++
    Text.ofString "(([^<>()\\[\\].,;:\\s@\"]+\\.)+[^<>()\\[\\].,;:\\s@\"]\x7b2,\x7d)$", true⟩

/-- How many digits the fraction of a second has in a date-time. -/
inductive FractionDigits where
  /-- No fraction, or one of any length. -/
  | any
  /-- Exactly so many; no fraction for none or fewer. -/
  | exactly (n : Int)

def FractionDigits.source : FractionDigits → Text
  | any => Text.ofString "(\\.\\d+)?"
  | exactly n =>
    if 0 < n then Text.ofString "\\.\\d\x7b" ++ Text.ofInt n ++ [125] else []

/-- Date-times such as `2024-01-31T10:20:30Z`; with `offset`, also those that end in an offset. -/
def datetime (digits : FractionDigits) (offset : Bool) : Pattern :=
  ⟨Text.ofString
      "^\\d\x7b4\x7d-\\d\x7b2\x7d-\\d\x7b2\x7dT\\d\x7b2\x7d:\\d\x7b2\x7d:\\d\x7b2\x7d" ++
    digits.source ++
    Text.ofString (if offset then "(([+-]\\d\x7b2\x7d:\\d\x7b2\x7d)|Z)$" else "Z$"), false⟩

end Pattern
end Schemata

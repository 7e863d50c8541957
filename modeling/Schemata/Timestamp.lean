import Schemata.Calendar
import Schemata.Number.Binary64
import Schemata.Text

/-! Instants as milliseconds since the beginning of 1970 in UTC, and their ISO-8601 texts. Reading
takes `YYYY-MM-DD`, optionally a clock time after `T`, `t` or a space, with seconds and a fraction,
and then an offset; what has no offset is UTC. Writing always gives milliseconds and `Z`. -/
namespace Schemata.Timestamp

def millisPerDay : Int := 86400000

/-- A valid date in the form `YYYY-MM-DD`. -/
def readDate? (t : Text) : Option (CivilDate × Text) := do
  let (year, t) ← t.takeDigits? 4
  let (month, t) ← (← t.skip? 45).takeDigits? 2
  let (day, t) ← (← t.skip? 45).takeDigits? 2
  let date : CivilDate := ⟨year, month, day⟩
  if date.isValid then some (date, t) else none

/-- Milliseconds of a fraction of a second: three digits count, the others are dropped. -/
def fractionMillis (digits : Text) : Nat :=
  Text.toNat ((digits ++ [48, 48, 48]).take 3)

/-- `.` and one digit or more, or nothing. -/
def readFraction? (t : Text) : Option (Nat × Text) :=
  match t.skip? 46 with
  | none => some (0, t)
  | some t =>
    let digits := t.takeWhile Text.isDigit
    if digits.isEmpty then none else some (fractionMillis digits, t.dropWhile Text.isDigit)

/-- `:SS` with an optional fraction, or nothing; in milliseconds. -/
def readSeconds? (t : Text) : Option (Nat × Text) :=
  match t.skip? 58 with
  | none => some (0, t)
  | some t => do
    let (second, t) ← t.takeDigits? 2
    let (millis, t) ← readFraction? t
    if second ≤ 59 then some (second * 1000 + millis, t) else none

/-- `HH:MM` with optional seconds; in milliseconds. -/
def readClock? (t : Text) : Option (Nat × Text) := do
  let (hour, t) ← t.takeDigits? 2
  let (minute, t) ← (← t.skip? 58).takeDigits? 2
  let (millis, t) ← readSeconds? t
  if hour ≤ 23 ∧ minute ≤ 59 then some ((hour * 60 + minute) * 60000 + millis, t) else none

/-- Hours and minutes of an offset, with or without a colon between; in minutes. -/
def readOffsetMinutes? (t : Text) : Option (Nat × Text) := do
  let (hours, t) ← t.takeDigits? 2
  let (minutes, t) ← ((t.skip? 58).getD t).takeDigits? 2
  if hours ≤ 23 ∧ minutes ≤ 59 then some (hours * 60 + minutes, t) else none

/-- `Z`, `z`, a signed offset, or nothing; in minutes. -/
def readZone? : Text → Option (Int × Text)
  | [] => some (0, [])
  | b :: t =>
    if b = 90 ∨ b = 122 then some (0, t)
    else if b = 43 then (readOffsetMinutes? t).map fun (m, t) => ((m : Int), t)
    else if b = 45 then (readOffsetMinutes? t).map fun (m, t) => (-(m : Int), t)
    else some (0, b :: t)

/-- The clock time less its offset in milliseconds; zero if no clock time follows the date. -/
def readTime? : Text → Option (Int × Text)
  | [] => some (0, [])
  | b :: t =>
    if b = 84 ∨ b = 116 ∨ b = 32 then do
      let (millis, t) ← readClock? t
      let (offset, t) ← readZone? t
      some (millis - offset * 60000, t)
    else some (0, b :: t)

def read? (t : Text) : Option Int := do
  let (date, t) ← readDate? t
  let (millis, t) ← readTime? t
  if t.isEmpty then some (date.toDayNumber * millisPerDay + millis) else none

/-- The instant as a number. It is exact, as four-digit years stay far below 2^53 milliseconds. -/
def parse? (t : Text) : Option Binary64 := (read? t).map .ofInt

/-- At least four places, the minus sign of a year before 0 among them. -/
def yearText (year : Int) : Text :=
  if year < 0 then 45 :: Text.padZeros 3 (Text.ofNat year.natAbs)
  else Text.padZeros 4 (Text.ofNat year.natAbs)

def twoDigits (n : Nat) : Text := Text.padZeros 2 (Text.ofNat n)

/-- `YYYY-MM-DDTHH:MM:SS.mmmZ` of a whole number of milliseconds. -/
def write (millis : Int) : Text :=
  let date := CivilDate.ofDayNumber (millis / millisPerDay)
  let rest := (millis % millisPerDay).toNat
  yearText date.year ++ 45 :: twoDigits date.month ++ 45 :: twoDigits date.day ++
    84 :: twoDigits (rest / 3600000) ++ 58 :: twoDigits (rest / 60000 % 60) ++
    58 :: twoDigits (rest / 1000 % 60) ++ 46 :: Text.padZeros 3 (Text.ofNat (rest % 1000)) ++ [90]

/-- The text of an instant, fractions of a millisecond rounded down. -/
def format : Binary64 → Text
  | .finite negative size => write (Binary64.floorInt negative size)
  | _ => Text.ofString "Invalid Date"

/-- The beginning of the day of an instant, computed by a division and a product of binary64. -/
def startOfDay (millis : Binary64) : Binary64 :=
  ((millis.div (.ofInt millisPerDay)).floor).mul (.ofInt millisPerDay)

end Schemata.Timestamp

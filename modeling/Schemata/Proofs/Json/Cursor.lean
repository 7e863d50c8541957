import Schemata.Json.Reader
import Schemata.Value.Edit

/-! Reading JSON texts by a cursor that is moved over the whole text. Nothing in the types keeps it inside:
an access, a comparison or a cut behind the end of the text is out of range, and a conversion of a text
without digits is an invalid argument. Nor does anything see to it that a loop or a call gets anywhere. They
go on as long as they are given fuel, and a reading that runs out of fuel has no outcome. Where the cursor
was and what was done there is written down, moment by moment. -/
namespace Schemata.Json.Cursor

/-- The routines that call each other. -/
inductive Routine where
  | value | object | array
deriving DecidableEq

/-- What is done at a moment. -/
inductive Act where
  | call (routine : Routine)
  | move
  | byte (index : Nat)
  | compare (start : Nat)
  | cut (start stop : Nat)
  | integer (token : Text)

structure Moment where
  pos : Nat
  act : Act

structure State where
  pos : Nat := 0
  /-- All moments so far, the latest first. -/
  history : List Moment := []

/-- What a reading is broken off by. -/
inductive Raised where
  | outOfRange
  | invalidArgument
  | fault (reason : Fault)

def Raised.category : Raised → Category
  | outOfRange => .outOfRange
  | invalidArgument => .invalidArgument
  | fault reason => reason.category

/-- A reading that may be broken off, and may run out of fuel. -/
abbrev Scan := ExceptT Raised (StateT State Option)

section Primitives

def exhausted : Scan α := ExceptT.mk fun _ => none

def note (act : Act) : Scan Unit :=
  modify fun s => { s with history := ⟨s.pos, act⟩ :: s.history }

def position : Scan Nat := do return (← get).pos

def advance (count : Nat) : Scan Unit :=
  modify fun s => ⟨s.pos + count, ⟨s.pos + count, .move⟩ :: s.history⟩

def byteAt (t : Text) (index : Nat) : Scan UInt8 := do
  note (.byte index)
  match t[index]? with
  | some b => return b
  | none => throw .outOfRange

/-- Whether a word stands at a place that must not be behind the end. -/
def startsAt (t word : Text) (start : Nat) : Scan Bool := do
  note (.compare start)
  if start ≤ t.length then return (t.drop start).take word.length == word
  else throw .outOfRange

/-- The bytes from a place, which must not be behind the end, up to another. -/
def cut (t : Text) (start stop : Nat) : Scan Text := do
  note (.cut start stop)
  if start ≤ t.length then return (t.drop start).take (stop - start)
  else throw .outOfRange

/-- The 64-bit integer at the beginning of a text, behind blanks and a sign. There must be a digit, and an
integer that needs more bits is out of range. -/
def integer (token : Text) : Scan Int64 := do
  note (.integer token)
  let (negative, unsigned) := Value.splitSign (Json.skipSpace token)
  let digits := unsigned.takeWhile Text.isDigit
  let n : Int := if negative then -(Text.toNat digits : Int) else Text.toNat digits
  if digits = [] then throw .invalidArgument
  else if Int64.minValue.toInt ≤ n ∧ n ≤ Int64.maxValue.toInt then return Int64.ofInt n
  else throw .outOfRange

/-- The double nearest to a decimal number. -/
def double (token : Text) : Binary64 :=
  let (negative, unsigned) := Value.splitSign token
  ((Value.decimal? negative unsigned).map Decimal.toBinary64).getD 0

def change (edit : Edit Unit) (v : Value) : Scan Value :=
  match edit v with
  | (.ok (), v) => return v
  | (.error fault, _) => throw (.fault fault)

end Primitives

/-- Line and column behind one more byte. -/
def along (place : Nat × Nat) (b : UInt8) : Nat × Nat :=
  if b = 10 then (place.1 + 1, 1) else (place.1, place.2 + 1)

/-- Line and column of the cursor. -/
def place (t : Text) : Scan (Nat × Nat) := do
  let pos ← position
  (List.range (min pos t.length)).foldlM (fun place index => return along place (← byteAt t index)) (1, 1)

def fail (t : Text) (problem : Problem) : Scan α := do
  let (line, column) ← place t
  throw (.fault (.malformedJson problem line column))

/-- The byte under the cursor; at the end a zero, which may also stand in the text. -/
def peek (t : Text) : Scan UInt8 := do
  let pos ← position
  if pos < t.length then byteAt t pos else return 0

/-- Goes past the byte under the cursor if it is one of these. -/
def pass (t : Text) (bytes : List UInt8) : Scan Bool := do
  if bytes.contains (← peek t) then
    advance 1
    return true
  else return false

def skipSpace (t : Text) : Nat → Scan Unit
  | 0 => exhausted
  | fuel + 1 => do
    let pos ← position
    if pos < t.length then
      if Text.isSpace (← byteAt t pos) then
        advance 1
        skipSpace t fuel
      else return ()
    else return ()

def expect (t : Text) (fuel : Nat) (b : UInt8) : Scan Unit := do
  skipSpace t fuel
  if ← pass t [b] then return () else fail t (.expected b)

def literal (t word : Text) : Scan Bool := do
  if ← startsAt t word (← position) then
    advance word.length
    return true
  else return false

def constant (t : Text) : Scan Value := do
  if ← literal t (Text.ofString "null") then return .null
  else if ← literal t (Text.ofString "true") then return .bool true
  else if ← literal t (Text.ofString "false") then return .bool false
  else fail t .unexpectedToken

section Strings

/-- The byte under the cursor, which there must be; the cursor goes past it. -/
def next (t : Text) (missing : Problem) : Scan UInt8 := do
  let pos ← position
  if pos < t.length then
    let b ← byteAt t pos
    advance 1
    return b
  else fail t missing

def codeUnit (t : Text) : Scan UInt32 := do
  let pos ← position
  if pos + 4 ≤ t.length then
    match unitOfEscape? (← cut t pos (pos + 4)) with
    | some unit =>
      advance 4
      return unit
    | none => fail t .invalidUnicode
  else fail t .unterminatedUnicode

/-- What an escape stands for, behind its letter. -/
def escape (t : Text) (letter : UInt8) : Scan Text := do
  if letter = 117 then
    let unit ← codeUnit t
    return encodeUnit unit
  else
    match escaped? letter with
    | some b => return [b]
    | none => fail t .unsupportedEscape

/-- The rest of a string, put behind what was read of it. -/
def pieces (t : Text) : Nat → Text → Scan Text
  | 0, _ => exhausted
  | fuel + 1, read => do
    let b ← next t .unterminatedString
    if b = 34 then return read
    else if b = 92 then
      let letter ← next t .unterminatedEscape
      let bytes ← escape t letter
      pieces t fuel (read ++ bytes)
    else pieces t fuel (read ++ [b])

def string (t : Text) (fuel : Nat) : Scan Text := do
  advance 1
  pieces t fuel []

end Strings

section Numbers

def moreDigits (t : Text) : Nat → Scan Unit
  | 0 => exhausted
  | fuel + 1 => do
    if Text.isDigit (← peek t) then
      advance 1
      moreDigits t fuel
    else return ()

def digits (t : Text) (fuel : Nat) : Scan Unit := do
  if Text.isDigit (← peek t) then moreDigits t fuel else fail t .invalidNumber

/-- Goes past a point and digits; whether they are there. -/
def fraction (t : Text) (fuel : Nat) : Scan Bool := do
  if ← pass t [46] then
    digits t fuel
    return true
  else return false

/-- Goes past an exponent; whether it is there. -/
def exponent (t : Text) (fuel : Nat) : Scan Bool := do
  if ← pass t [101, 69] then
    let _ ← pass t [43, 45]
    digits t fuel
    return true
  else return false

/-- The value of a number's token. An integer that is out of range is a double. -/
def valueOfToken (token : Text) (integral : Bool) : Scan Value := do
  if integral then
    tryCatch (do return .int (← integer token)) fun
      | .outOfRange => return .double (double token)
      | raised => throw raised
  else return .double (double token)

/-- A number behind its sign. Its token began at `start`. -/
def unsigned (t : Text) (fuel start : Nat) : Scan Value := do
  digits t fuel
  let fractional ← fraction t fuel
  let scaled ← exponent t fuel
  valueOfToken (← cut t start (← position)) (!fractional && !scaled)

def number (t : Text) (fuel : Nat) : Scan Value := do
  let start ← position
  let _ ← pass t [45]
  unsigned t fuel start

end Numbers

/-- A key and the colon behind it. -/
def memberKey (t : Text) (fuel : Nat) : Scan Text := do
  skipSpace t fuel
  if (← peek t) = 34 then
    let key ← string t fuel
    expect t fuel 58
    return key
  else fail t .expectedKey

mutual

def value (t : Text) : Nat → Scan Value
  | 0 => exhausted
  | fuel + 1 => do
    note (.call .value)
    skipSpace t fuel
    let b ← peek t
    if b = 123 then object t fuel
    else if b = 91 then array t fuel
    else if b = 34 then return .string (← string t fuel)
    else if b = 45 ∨ Text.isDigit b then number t fuel
    else constant t

def object (t : Text) : Nat → Scan Value
  | 0 => exhausted
  | fuel + 1 => do
    note (.call .object)
    expect t fuel 123
    skipSpace t fuel
    if ← pass t [125] then return .object [] else members t fuel (.object [])

/-- The members up to the closing brace, set one after the other in an object. -/
def members (t : Text) : Nat → Value → Scan Value
  | 0, _ => exhausted
  | fuel + 1, read => do
    let key ← memberKey t fuel
    let v ← value t fuel
    let read ← change (Edit.inField key (Edit.replace v)) read
    skipSpace t fuel
    if ← pass t [44] then members t fuel read
    else
      expect t fuel 125
      return read

def array (t : Text) : Nat → Scan Value
  | 0 => exhausted
  | fuel + 1 => do
    note (.call .array)
    expect t fuel 91
    skipSpace t fuel
    if ← pass t [93] then return .array [] else elements t fuel (.array [])

/-- The elements up to the closing bracket, added one after the other to an array. -/
def elements (t : Text) : Nat → Value → Scan Value
  | 0, _ => exhausted
  | fuel + 1, read => do
    let v ← value t fuel
    let read ← change (Edit.push v) read
    skipSpace t fuel
    if ← pass t [44] then elements t fuel read
    else
      expect t fuel 93
      return read

end

/-- A value and nothing but blanks behind it. -/
def document (t : Text) (fuel : Nat) : Scan Value := do
  let v ← value t fuel
  skipSpace t fuel
  if (← position) < t.length then fail t .extraData else return v

/-- What the reading of a text comes to and the state that it leaves, if it does not run out of fuel. -/
def run (t : Text) (fuel : Nat) : Option (Except Raised Value × State) :=
  StateT.run (ExceptT.run (document t fuel)) {}

end Schemata.Json.Cursor

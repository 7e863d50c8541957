import Schemata.Fault
import Schemata.Value.Numeral

/-! Reading JSON texts. Every function takes the text that is left and hands back what it read
together with the text behind it, so a reader cannot look outside the text. Beyond the grammar of
JSON it takes the six ASCII blanks between tokens, leading zeros in numbers, any byte but a quote or
a backslash unescaped in strings, and any four bytes behind `\u` that `unitOfEscape?` can read. A
fault carries the text at which it was noticed; its line and column are counted from what lies
before. -/
namespace Schemata.Json

/-- A problem and the text that is left at its place. -/
structure Stop where
  problem : Problem
  rest : Text

def skipSpace (t : Text) : Text := t.dropWhile Text.isSpace

theorem length_skipSpace_le (t : Text) : (skipSpace t).length ≤ t.length :=
  (List.dropWhile_sublist _).length_le

/-- The UTF-8 pattern of a number of up to 16 bits; of a larger one, the low bits. A surrogate is
encoded like any other number. -/
def encodeUnit (unit : UInt32) : Text :=
  if unit < 0x80 then [unit.toUInt8]
  else if unit < 0x800 then [(unit >>> 6 ||| 0xC0).toUInt8, (unit &&& 0x3F ||| 0x80).toUInt8]
  else
    [(unit >>> 12 ||| 0xE0).toUInt8, (unit >>> 6 &&& 0x3F ||| 0x80).toUInt8,
      (unit &&& 0x3F ||| 0x80).toUInt8]

def hexDigit? (b : UInt8) : Option Nat :=
  if 48 ≤ b ∧ b ≤ 57 then some (b.toNat - 48)
  else if 97 ≤ b ∧ b ≤ 102 then some (b.toNat - 87)
  else if 65 ≤ b ∧ b ≤ 70 then some (b.toNat - 55)
  else none

/-- The number of one hexadecimal digit or more. -/
def hexDigits? (t : Text) : Option Nat :=
  if t.isEmpty then none
  else t.foldl (fun n b => do some ((← n) * 16 + (← hexDigit? b))) (some 0)

/-- Hexadecimal digits, after `0x` or `0X` if digits follow that. -/
def hexNumber? : Text → Option Nat
  | 48 :: x :: d :: t =>
    if x = 120 ∨ x = 88 then hexDigits? (d :: t) else hexDigits? (48 :: x :: d :: t)
  | t => hexDigits? t

/-- The unit that the four bytes of an escape stand for. They are read as a hexadecimal number,
which may begin with blanks, a sign and `0x` as long as the bytes reach; a minus sign negates the
number modulo 2^32. -/
def unitOfEscape? (digits : Text) : Option UInt32 :=
  match skipSpace digits with
  | 43 :: t => (hexNumber? t).map UInt32.ofNat
  | 45 :: t => (hexNumber? t).map fun n => 0 - UInt32.ofNat n
  | t => (hexNumber? t).map UInt32.ofNat

def escaped? (b : UInt8) : Option UInt8 :=
  if b = 34 ∨ b = 92 ∨ b = 47 then some b
  else if b = 98 then some 8
  else if b = 102 then some 12
  else if b = 110 then some 10
  else if b = 114 then some 13
  else if b = 116 then some 9
  else none

/-- Puts bytes in front of a string that was read. -/
def prepend (bytes : Text) (read : Except Stop (Text × Text)) : Except Stop (Text × Text) :=
  read.map fun (s, rest) => (bytes ++ s, rest)

/-- The rest of a string up to its closing quote, and the text behind that. -/
def stringBody : Text → Except Stop (Text × Text)
  | [] => .error ⟨.unterminatedString, []⟩
  | b :: t =>
    if b = 34 then .ok ([], t)
    else if b = 92 then
      match t with
      | [] => .error ⟨.unterminatedEscape, []⟩
      | e :: t =>
        if e = 117 then
          match t with
          | h₁ :: h₂ :: h₃ :: h₄ :: rest =>
            match unitOfEscape? [h₁, h₂, h₃, h₄] with
            | some unit => prepend (encodeUnit unit) (stringBody rest)
            | none => .error ⟨.invalidUnicode, t⟩
          | _ => .error ⟨.unterminatedUnicode, t⟩
        else
          match escaped? e with
          | some c => prepend [c] (stringBody t)
          | none => .error ⟨.unsupportedEscape, t⟩
    else prepend [b] (stringBody t)

def digits (t : Text) : Except Stop (Text × Text) :=
  let run := t.takeWhile Text.isDigit
  if run.isEmpty then .error ⟨.invalidNumber, t⟩ else .ok (run, t.dropWhile Text.isDigit)

/-- A point and digits, or nothing. -/
def fraction (t : Text) : Except Stop (Option Text × Text) :=
  match t.skip? 46 with
  | none => .ok (none, t)
  | some t => (digits t).map fun (run, t) => (some run, t)

/-- `e` or `E`, an optional sign and digits, or nothing. -/
def exponent : Text → Except Stop (Option Int × Text)
  | [] => .ok (none, [])
  | b :: t =>
    if b = 101 ∨ b = 69 then
      match t with
      | 43 :: t => (digits t).map fun (run, t) => (some (Text.toNat run : Int), t)
      | 45 :: t => (digits t).map fun (run, t) => (some (-(Text.toNat run : Int)), t)
      | t => (digits t).map fun (run, t) => (some (Text.toNat run : Int), t)
    else .ok (none, b :: t)

/-- The value of a number's parts: without fraction and exponent it is an integer. -/
def numberValue (negative : Bool) (whole : Text) : Option Text → Option Int → Value
  | none, none => .ofDigits negative whole
  | fraction, exponent =>
    .double (Decimal.ofParts negative whole (fraction.getD []) (exponent.getD 0)).toBinary64

def unsigned (negative : Bool) (t : Text) : Except Stop (Value × Text) := do
  let (whole, t) ← digits t
  let (fraction, t) ← fraction t
  let (exponent, t) ← exponent t
  .ok (numberValue negative whole fraction exponent, t)

def number (t : Text) : Except Stop (Value × Text) :=
  match t with
  | 45 :: t => unsigned true t
  | t => unsigned false t

def literal? (t : Text) : Option (Value × Text) :=
  match Text.dropWord? (Text.ofString "null") t with
  | some rest => some (.null, rest)
  | none =>
    match Text.dropWord? (Text.ofString "true") t with
    | some rest => some (.bool true, rest)
    | none => (Text.dropWord? (Text.ofString "false") t).map fun rest => (.bool false, rest)

theorem length_stringBody {t : Text} {s rest : Text} (read : stringBody t = .ok (s, rest)) :
    rest.length < t.length := by
  fun_induction stringBody t generalizing s <;>
    simp_all [prepend, Except.map] <;> grind

theorem ok_of_map_ok {f : α → β} {x : Except Stop α} {b : β} (mapped : x.map f = .ok b) :
    ∃ a, x = .ok a ∧ f a = b := by
  cases x with
  | error => cases mapped
  | ok a => exact ⟨a, rfl, Except.ok.inj mapped⟩

theorem ok_of_bind_ok {x : Except Stop α} {next : α → Except Stop β} {b : β}
    (bound : x >>= next = .ok b) : ∃ a, x = .ok a ∧ next a = .ok b := by
  cases x with
  | error => cases bound
  | ok a => exact ⟨a, rfl, bound⟩

theorem length_digits {t run rest : Text} (read : digits t = .ok (run, rest)) :
    rest.length < t.length := by
  have parts := congrArg List.length (List.takeWhile_append_dropWhile (p := Text.isDigit) (l := t))
  rw [List.length_append] at parts
  simp only [digits, List.isEmpty_iff] at read
  split at read
  · cases read
  · rename_i some_digit
    have := List.length_pos_iff.mpr some_digit
    cases read
    omega

theorem length_fraction {t rest : Text} {part : Option Text} (read : fraction t = .ok (part, rest)) :
    rest.length ≤ t.length := by
  unfold fraction at read
  split at read
  · cases read
    exact Nat.le_refl _
  · rename_i tail skipped
    obtain ⟨⟨run, after⟩, scanned, same⟩ := ok_of_map_ok read
    have := length_digits scanned
    cases same
    rw [Text.skip?_eq_some_iff.mp skipped, List.length_cons]
    omega

theorem length_exponent {t rest : Text} {part : Option Int} (read : exponent t = .ok (part, rest)) :
    rest.length ≤ t.length := by
  unfold exponent at read
  split at read
  · cases read
    exact Nat.le_refl _
  · split at read
    · split at read <;>
        · obtain ⟨⟨run, after⟩, scanned, same⟩ := ok_of_map_ok read
          have := length_digits scanned
          cases same
          simp only [List.length_cons] at *
          omega
    · cases read
      exact Nat.le_refl _

theorem length_unsigned {negative : Bool} {t rest : Text} {v : Value}
    (read : unsigned negative t = .ok (v, rest)) : rest.length < t.length := by
  obtain ⟨⟨whole, afterWhole⟩, wholeRead, read⟩ := ok_of_bind_ok read
  obtain ⟨⟨part, afterPart⟩, partRead, read⟩ := ok_of_bind_ok read
  obtain ⟨⟨power, afterPower⟩, powerRead, read⟩ := ok_of_bind_ok read
  have := length_digits wholeRead
  have := length_fraction partRead
  have := length_exponent powerRead
  cases read
  omega

theorem length_number {t rest : Text} {v : Value} (read : number t = .ok (v, rest)) :
    rest.length < t.length := by
  unfold number at read
  split at read
  · have := length_unsigned read
    grind
  · exact length_unsigned read

theorem length_literal? {t rest : Text} {v : Value} (found : literal? t = some (v, rest)) :
    rest.length < t.length := by
  have longer : ∀ {word tail : Text}, 0 < word.length → Text.dropWord? word t = some tail →
      tail.length < t.length := by
    intro word tail some_byte dropped
    have := Text.dropWord?_eq_some_iff.mp dropped
    grind
  unfold literal? at found
  split at found
  · rename_i dropped
    have := longer (by decide) dropped
    grind
  · split at found
    · rename_i dropped
      have := longer (by decide) dropped
      grind
    · obtain ⟨tail, dropped, same⟩ := Option.map_eq_some_iff.mp found
      have := longer (by decide) dropped
      grind

/-- Something read from the beginning of `t`, and the shorter text behind it. -/
structure Read (α : Type) (t : Text) where
  result : α
  rest : Text
  shorter : rest.length < t.length

mutual

/-- The value at the beginning of a text, behind blanks. -/
def value (t : Text) : Except Stop (Read Value t) :=
  match start : skipSpace t with
  | [] => .error ⟨.unexpectedToken, []⟩
  | b :: r =>
    have here : r.length < t.length := by have := length_skipSpace_le t; grind
    if b = 123 then
      match first : skipSpace r with
      | 125 :: rest => .ok ⟨.object [], rest, by have := length_skipSpace_le r; grind⟩
      | _ =>
        match members [] r with
        | .error stop => .error stop
        | .ok ⟨fields, rest, shorter⟩ => .ok ⟨.object fields, rest, by omega⟩
    else if b = 91 then
      match first : skipSpace r with
      | 93 :: rest => .ok ⟨.array [], rest, by have := length_skipSpace_le r; grind⟩
      | _ =>
        match elements r with
        | .error stop => .error stop
        | .ok ⟨items, rest, shorter⟩ => .ok ⟨.array items, rest, by omega⟩
    else if b = 34 then
      match read : stringBody r with
      | .error stop => .error stop
      | .ok (s, rest) => .ok ⟨.string s, rest, by have := length_stringBody read; omega⟩
    else if b = 45 ∨ Text.isDigit b then
      match read : number (b :: r) with
      | .error stop => .error stop
      | .ok (v, rest) => .ok ⟨v, rest, by have := length_number read; grind⟩
    else
      match found : literal? (b :: r) with
      | some (v, rest) => .ok ⟨v, rest, by have := length_literal? found; grind⟩
      | none => .error ⟨.unexpectedToken, b :: r⟩
termination_by (t.length, 0)

/-- The members of an object up to its closing brace, set one after the other. -/
def members (fields : Fields Value) (t : Text) : Except Stop (Read (Fields Value) t) :=
  match start : skipSpace t with
  | 34 :: r =>
    match read : stringBody r with
    | .error stop => .error stop
    | .ok (key, afterKey) =>
      match colon : skipSpace afterKey with
      | 58 :: afterColon =>
        have here : afterColon.length < t.length := by
          have := length_skipSpace_le t
          have := length_skipSpace_le afterKey
          have := length_stringBody read
          grind
        match value afterColon with
        | .error stop => .error stop
        | .ok ⟨v, afterValue, shorter⟩ =>
          match next : skipSpace afterValue with
          | 44 :: rest =>
            have after : rest.length < t.length := by
              have := length_skipSpace_le afterValue
              grind
            match members (Fields.insert key v fields) rest with
            | .error stop => .error stop
            | .ok ⟨all, rest, shorter⟩ => .ok ⟨all, rest, by omega⟩
          | 125 :: rest =>
            .ok ⟨Fields.insert key v fields, rest, by
              have := length_skipSpace_le afterValue
              grind⟩
          | stopped => .error ⟨.expected 125, stopped⟩
      | stopped => .error ⟨.expected 58, stopped⟩
  | stopped => .error ⟨.expectedKey, stopped⟩
termination_by (t.length, 1)

/-- The elements of an array up to its closing bracket. -/
def elements (t : Text) : Except Stop (Read (List Value) t) :=
  match value t with
  | .error stop => .error stop
  | .ok ⟨v, afterValue, shorter⟩ =>
    match next : skipSpace afterValue with
    | 44 :: rest =>
      have after : rest.length < t.length := by
        have := length_skipSpace_le afterValue
        grind
      match elements rest with
      | .error stop => .error stop
      | .ok ⟨items, rest, shorter⟩ => .ok ⟨v :: items, rest, by omega⟩
    | 93 :: rest => .ok ⟨[v], rest, by have := length_skipSpace_le afterValue; grind⟩
    | stopped => .error ⟨.expected 93, stopped⟩
termination_by (t.length, 1)

end

/-- Line and column, from one, of the place where `rest` is left of a text. -/
def position (t rest : Text) : Nat × Nat :=
  let before := t.take (t.length - rest.length)
  (before.count 10 + 1, (before.reverse.takeWhile (· != 10)).length + 1)

def Stop.fault (stop : Stop) (t : Text) : Fault :=
  let (line, column) := position t stop.rest
  .malformedJson stop.problem line column

def read (t : Text) : Except Fault Value :=
  match value t with
  | .error stop => .error (stop.fault t)
  | .ok read =>
    let rest := skipSpace read.rest
    if rest.isEmpty then .ok read.result else .error (Stop.fault ⟨.extraData, rest⟩ t)

end Schemata.Json

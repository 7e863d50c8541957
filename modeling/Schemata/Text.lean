/-! Texts are byte strings. Nothing here requires valid UTF-8: a text is trimmed, compared and
searched byte by byte, and only `codePoints` looks at how UTF-8 groups bytes. Texts are ordered as
lists of unsigned bytes, so a proper beginning of a text comes before it. -/
namespace Schemata

abbrev Text := List UInt8

namespace Text

/-- The UTF-8 bytes of a string. -/
def ofString (s : String) : Text := s.toList.flatMap String.utf8EncodeChar

/-- The six ASCII blanks: space, tab, line feed, vertical tab, form feed, carriage return. -/
def isSpace (b : UInt8) : Bool := b == 32 || (9 ≤ b && b ≤ 13)

def isDigit (b : UInt8) : Bool := 48 ≤ b && b ≤ 57

/-- Without the blanks at both ends. -/
def trim (t : Text) : Text :=
  ((t.dropWhile isSpace).reverse.dropWhile isSpace).reverse

/-- Only blanks, or nothing at all. -/
def isBlank (t : Text) : Bool := t.all isSpace

/-- How many bytes do not continue a UTF-8 sequence: the number of code points of a valid text. -/
def codePoints (t : Text) : Nat := t.countP fun b => b &&& 0xC0 != 0x80

/-- ASCII lower case; every byte outside `A` to `Z` is its own. -/
def lowerByte (b : UInt8) : UInt8 := if 65 ≤ b && b ≤ 90 then b + 32 else b

/-- ASCII upper case; every byte outside `a` to `z` is its own. -/
def upperByte (b : UInt8) : UInt8 := if 97 ≤ b && b ≤ 122 then b - 32 else b

def ofNat (n : Nat) : Text :=
  if n < 10 then [UInt8.ofNat (48 + n)] else ofNat (n / 10) ++ [UInt8.ofNat (48 + n % 10)]

def ofInt (n : Int) : Text :=
  if n < 0 then 45 :: ofNat n.natAbs else ofNat n.natAbs

/-- The number that a run of decimal digits denotes; leading zeros add nothing. -/
def toNat (digits : Text) : Nat :=
  digits.foldl (fun n b => n * 10 + (b.toNat - 48)) 0

/-- Zeros put in front until the text has `width` bytes. -/
def padZeros (width : Nat) (t : Text) : Text := List.replicate (width - t.length) 48 ++ t

/-- The first `n` bytes read as a number, if they are `n` digits, and the text after them. -/
def takeDigits? (n : Nat) (t : Text) : Option (Nat × Text) :=
  if n ≤ t.length && (t.take n).all isDigit then some (toNat (t.take n), t.drop n) else none

/-- The text after the byte `b`, if it starts with `b`. -/
def skip? (b : UInt8) : Text → Option Text
  | [] => none
  | c :: t => if c = b then some t else none

theorem skip?_eq_some_iff {b : UInt8} {t rest : Text} : skip? b t = some rest ↔ t = b :: rest := by
  cases t <;> simp [skip?]

/-- The text after a word, if it starts with that word. -/
def dropWord? : Text → Text → Option Text
  | [], t => some t
  | _ :: _, [] => none
  | w :: word, b :: t => if w = b then dropWord? word t else none

theorem dropWord?_eq_some_iff {word t rest : Text} :
    dropWord? word t = some rest ↔ t = word ++ rest := by
  fun_induction dropWord? word t <;> grind

end Text
end Schemata

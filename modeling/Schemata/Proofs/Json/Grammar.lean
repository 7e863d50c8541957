import Schemata.Json.Reader

/-! The grammar of JSON texts and what they mean, apart from the reader. A syntax tree keeps the spelling
of its numbers and strings; its tokens, with blanks before, between and behind them, are the texts of the
tree. How much is allowed is up to a dialect. In the standard one a blank is one of four bytes, a string
has its control bytes escaped, four hexadecimal digits stand behind `\u` and no zero leads a number. The
relaxed one takes all six blanks, every byte but a quote or a backslash unescaped and leading zeros; the
lenient one also lets blanks, a sign and `0x` stand for some of the four digits. -/
namespace Schemata.Json

/-- How freely a text may be written. -/
structure Dialect where
  blank : UInt8 → Bool
  /-- Bytes that stand for themselves in a string, if they are neither quote nor backslash. -/
  plain : UInt8 → Bool
  /-- Digits that may be the whole part of a number. -/
  whole : Text → Bool
  /-- Four bytes behind `\u` and the bytes that they stand for. -/
  unit : Text → Text → Prop

/-- The hexadecimal digits of both cases with their values. -/
def hexValues : List (UInt8 × Nat) :=
  (Text.ofString "0123456789abcdef").zipIdx ++ (Text.ofString "ABCDEF").zipIdx 10

/-- Hexadecimal digits and the number that they denote. -/
inductive HexNumber : Text → Nat → Prop where
  | digit {b : UInt8} {n : Nat} : (b, n) ∈ hexValues → HexNumber [b] n
  | append {t : Text} {b : UInt8} {m n : Nat} :
      HexNumber t m → (b, n) ∈ hexValues → HexNumber (t ++ [b]) (m * 16 + n)

/-- The UTF-8 pattern of a number below 2^16: one byte below 2^7, two below 2^11, else three. -/
def unitBytes (n : Nat) : Text :=
  if n < 0x80 then [.ofNat n]
  else if n < 0x800 then [.ofNat (0xC0 + n / 64), .ofNat (0x80 + n % 64)]
  else [.ofNat (0xE0 + n / 4096), .ofNat (0x80 + n / 64 % 64), .ofNat (0x80 + n % 64)]

inductive Sign where
  | absent | plus | minus
deriving DecidableEq

namespace Sign

def text : Sign → Text
  | absent => []
  | plus => [43]
  | minus => [45]

def apply : Sign → Nat → Int
  | minus, n => -(n : Int)
  | _, n => n

/-- Under a minus sign, a number is negated modulo 2^32. -/
def word : Sign → Nat → UInt32
  | minus, n => 0 - .ofNat n
  | _, n => .ofNat n

end Sign

/-- A hexadecimal number behind blanks, a sign and `0x`, each of which may be missing. -/
inductive LenientUnit : Text → UInt32 → Prop where
  | mk {blanks lead digits : Text} {n : Nat} (sign : Sign) : blanks.all Text.isSpace = true →
      lead ∈ ([[], [48, 120], [48, 88]] : List Text) → HexNumber digits n →
      LenientUnit (blanks ++ (sign.text ++ (lead ++ digits))) (sign.word n)

namespace Dialect

def standard : Dialect where
  blank b := b == 32 || b == 9 || b == 10 || b == 13
  plain b := 32 ≤ b
  whole digits := digits.length == 1 || digits.head? != some 48
  unit four bytes := ∃ n, HexNumber four n ∧ bytes = unitBytes n

def relaxed : Dialect where
  blank := Text.isSpace
  plain _ := true
  whole _ := true
  unit := standard.unit

def lenient : Dialect :=
  { relaxed with unit := fun four bytes => ∃ u, LenientUnit four u ∧ bytes = encodeUnit u }

/-- What is allowed in the first dialect is allowed in the second. -/
structure Within (d e : Dialect) : Prop where
  blank : ∀ {b}, d.blank b = true → e.blank b = true
  plain : ∀ {b}, d.plain b = true → e.plain b = true
  whole : ∀ {digits}, d.whole digits = true → e.whole digits = true
  unit : ∀ {four bytes : Text}, four.length = 4 → d.unit four bytes → e.unit four bytes

theorem Within.trans {d e f : Dialect} (first : Within d e) (second : Within e f) : Within d f where
  blank allowed := second.blank (first.blank allowed)
  plain allowed := second.plain (first.plain allowed)
  whole allowed := second.whole (first.whole allowed)
  unit four allowed := second.unit four (first.unit four allowed)

theorem standard_within_relaxed : Within standard relaxed where
  blank {b} allowed := by
    simp only [standard, Bool.or_eq_true, beq_iff_eq] at allowed
    rcases allowed with ((rfl | rfl) | rfl) | rfl <;> decide
  plain _ := rfl
  whole _ := rfl
  unit _ allowed := allowed

end Dialect

/-- One digit or more. -/
def Digits (t : Text) : Prop := t ≠ [] ∧ t.all Text.isDigit = true

structure Exponent where
  letter : UInt8
  sign : Sign
  digits : Text

/-- A number as it is spelled. -/
structure Numeral where
  negative : Bool
  whole : Text
  fraction : Option Text
  exponent : Option Exponent

namespace Exponent

def text (e : Exponent) : Text := e.letter :: (e.sign.text ++ e.digits)

def power (e : Exponent) : Int := e.sign.apply (Text.toNat e.digits)

/-- The letter is an `e` of either case, and digits follow. -/
structure Legal (e : Exponent) : Prop where
  letter : e.letter = 101 ∨ e.letter = 69
  digits : Digits e.digits

end Exponent

namespace Numeral

/-- The number without its minus sign. -/
def magnitude (n : Numeral) : Text :=
  n.whole ++ (n.fraction.elim [] (46 :: ·) ++ n.exponent.elim [] Exponent.text)

def text (n : Numeral) : Text := if n.negative then 45 :: n.magnitude else n.magnitude

/-- The integer that the whole part denotes. -/
def integer (n : Numeral) : Int :=
  if n.negative then -(Text.toNat n.whole : Int) else Text.toNat n.whole

/-- The exact number. -/
def decimal (n : Numeral) : Decimal :=
  .ofParts n.negative n.whole (n.fraction.getD []) (n.exponent.elim 0 Exponent.power)

/-- An integer that 64 bits hold is that integer if it is spelled as one; all other numbers are the
nearest doubles. -/
def value (n : Numeral) : Value :=
  if n.fraction.isNone ∧ n.exponent.isNone ∧
      Int64.minValue.toInt ≤ n.integer ∧ n.integer ≤ Int64.maxValue.toInt then
    .int (Int64.ofInt n.integer)
  else .double n.decimal.toBinary64

structure Legal (d : Dialect) (n : Numeral) : Prop where
  whole : Digits n.whole
  leading : d.whole n.whole = true
  fraction : ∀ digits ∈ n.fraction, Digits digits
  exponent : ∀ e ∈ n.exponent, e.Legal

end Numeral

/-- Letters that may stand behind a backslash, with the bytes that they stand for. -/
def shortEscapes : List (UInt8 × UInt8) :=
  [(34, 34), (92, 92), (47, 47), (98, 8), (102, 12), (110, 10), (114, 13), (116, 9)]

/-- No letter of these is the `u` in front of four digits. -/
theorem short_ne {letter b : UInt8} (listed : (letter, b) ∈ shortEscapes) : letter ≠ 117 := by
  have all : shortEscapes.all (fun pair => pair.1 != 117) = true := by decide
  exact bne_iff_ne.mp (List.all_eq_true.mp all _ listed)

/-- A piece of a string: how it is written, and the bytes that it stands for. -/
structure Piece where
  written : Text
  bytes : Text

inductive Piece.Legal (d : Dialect) : Piece → Prop where
  | plain {b : UInt8} : d.plain b = true → b ≠ 34 → b ≠ 92 → Legal d ⟨[b], [b]⟩
  | short {letter b : UInt8} : (letter, b) ∈ shortEscapes → Legal d ⟨[92, letter], [b]⟩
  | unit {four bytes : Text} :
      four.length = 4 → d.unit four bytes → Legal d ⟨92 :: 117 :: four, bytes⟩

/-- The syntax of a JSON text. -/
inductive Tree where
  | null
  | bool (b : Bool)
  | number (n : Numeral)
  | string (pieces : List Piece)
  | array (items : List Tree)
  | object (members : List (List Piece × Tree))

def quoted (pieces : List Piece) : Text := 34 :: (pieces.flatMap Piece.written ++ [34])

/-- The bytes that a string stands for. -/
def meant (pieces : List Piece) : Text := pieces.flatMap Piece.bytes

namespace Tree

theorem sizeOf_member_lt {member : List Piece × Tree} {members : List (List Piece × Tree)}
    (listed : member ∈ members) : sizeOf member.2 < sizeOf members := by
  have whole := List.sizeOf_lt_of_mem listed
  obtain ⟨name, tree⟩ := member
  rw [Prod.mk.sizeOf_spec] at whole
  change sizeOf tree < _
  omega

def tokens : Tree → List Text
  | null => [Text.ofString "null"]
  | bool b => [Text.ofString (if b then "true" else "false")]
  | number n => [n.text]
  | string pieces => [quoted pieces]
  | array items => [91] :: ([[44]].intercalate (items.map fun item => item.tokens) ++ [[93]])
  | object members => [123] :: ([[44]].intercalate (members.map fun member =>
      quoted member.1 :: [58] :: member.2.tokens) ++ [[125]])
termination_by tree => sizeOf tree
decreasing_by
  · decreasing_tactic
  · have := sizeOf_member_lt ‹_›
    simp only [object.sizeOf_spec]
    omega

/-- The value of the tree. Of several members with one name the last stays. -/
def value : Tree → Value
  | null => .null
  | bool b => .bool b
  | number n => n.value
  | string pieces => .string (meant pieces)
  | array items => .array (items.map fun item => item.value)
  | object members => .ofFields (members.map fun member => (meant member.1, member.2.value))
termination_by tree => sizeOf tree
decreasing_by
  · decreasing_tactic
  · have := sizeOf_member_lt ‹_›
    simp only [object.sizeOf_spec]
    omega

def memberTokens (member : List Piece × Tree) : List Text :=
  quoted member.1 :: [58] :: member.2.tokens

/-- Name and value of a member. -/
def entry (member : List Piece × Tree) : Text × Value := (meant member.1, member.2.value)

theorem tokens_array (items : List Tree) :
    (array items).tokens = [91] :: ([[44]].intercalate (items.map tokens) ++ [[93]]) := by
  rw [tokens]

theorem tokens_object (members : List (List Piece × Tree)) :
    (object members).tokens = [123] :: ([[44]].intercalate (members.map memberTokens) ++ [[125]]) := by
  rw [tokens]
  rfl

theorem value_object (members : List (List Piece × Tree)) :
    (object members).value = .ofFields (members.map entry) := by
  rw [value]
  rfl

inductive Legal (d : Dialect) : Tree → Prop where
  | null : Legal d null
  | bool (b : Bool) : Legal d (bool b)
  | number {n : Numeral} : n.Legal d → Legal d (number n)
  | string {pieces : List Piece} : (∀ piece ∈ pieces, piece.Legal d) → Legal d (string pieces)
  | array {items : List Tree} : (∀ item ∈ items, Legal d item) → Legal d (array items)
  | object {members : List (List Piece × Tree)} :
      (∀ member ∈ members, ∀ piece ∈ member.1, piece.Legal d) →
      (∀ member ∈ members, Legal d member.2) → Legal d (object members)

end Tree

/-- Tokens one after the other, with blanks before, between and behind them. -/
inductive Spaced (blank : UInt8 → Bool) : List Text → Text → Prop where
  | done {blanks : Text} : blanks.all blank = true → Spaced blank [] blanks
  | token {blanks token rest : Text} {tokens : List Text} : blanks.all blank = true →
      Spaced blank tokens rest → Spaced blank (token :: tokens) (blanks ++ (token ++ rest))

/-- The text is a way to write the tree. -/
structure Renders (d : Dialect) (tree : Tree) (t : Text) : Prop where
  legal : tree.Legal d
  spaced : Spaced d.blank tree.tokens t

section Within

variable {d e : Dialect} (within : Dialect.Within d e)

include within

theorem Piece.Legal.mono {piece : Piece} (legal : piece.Legal d) : piece.Legal e := by
  cases legal with
  | plain allowed quote escape => exact .plain (within.plain allowed) quote escape
  | short listed => exact .short listed
  | unit long allowed => exact .unit long (within.unit long allowed)

theorem Numeral.Legal.mono {n : Numeral} (legal : n.Legal d) : n.Legal e where
  whole := legal.whole
  leading := within.whole legal.leading
  fraction := legal.fraction
  exponent := legal.exponent

theorem Tree.Legal.mono {tree : Tree} (legal : tree.Legal d) : tree.Legal e := by
  induction legal with
  | null => exact .null
  | bool b => exact .bool b
  | number legal => exact .number (legal.mono within)
  | string legal => exact .string fun piece member => (legal piece member).mono within
  | array _ ih => exact .array ih
  | object legal _ ih =>
    exact .object (fun member listed piece part => (legal member listed piece part).mono within) ih

theorem Spaced.mono {tokens : List Text} {t : Text} (spaced : Spaced d.blank tokens t) :
    Spaced e.blank tokens t := by
  have every {blanks : Text} (all : blanks.all d.blank = true) : blanks.all e.blank = true :=
    List.all_eq_true.mpr fun b member => within.blank (List.all_eq_true.mp all b member)
  induction spaced with
  | done all => exact .done (every all)
  | token all _ ih => exact .token (every all) ih

theorem Renders.mono {tree : Tree} {t : Text} (renders : Renders d tree t) : Renders e tree t where
  legal := renders.legal.mono within
  spaced := renders.spaced.mono within

end Within

end Schemata.Json

import Schemata.Coercion
import Schemata.Proofs.Json.Numbers

/-! Numerals, read by coercion. Every numeral that a number is printed as is taken for what it is: it has
no blank to trim, no letter of a base, and it is no word. So a number that is coerced to a text and back
is the same number, in the simplest form. -/
namespace Schemata

open Json

variable {n : Numeral} {t : Text}

theorem Text.lowerByte_of_lt {b : UInt8} (small : b < 65) : lowerByte b = b := by
  rw [lowerByte, if_neg]
  simp [UInt8.not_le.mpr small]

theorem Value.baseOfLetter?_of_lt {b : UInt8} (small : b < 65) : baseOfLetter? b = none := by
  have apart {c : UInt8} (letter : 65 ≤ c) : b ≠ c := by
    rintro rfl
    exact absurd small (UInt8.not_lt.mpr letter)
  rw [baseOfLetter?, Text.lowerByte_of_lt small, if_neg (apart (by decide)), if_neg (apart (by decide)),
    if_neg (apart (by decide))]

namespace Json

/-- The bytes that numerals are made of: digits, signs, a point and the letter of an exponent. -/
def NumeralByte (b : UInt8) : Prop := Text.isDigit b = true ∨ b ∈ [43, 45, 46, 69, 101]

theorem NumeralByte.isSpace {b : UInt8} (byte : NumeralByte b) : Text.isSpace b = false := by
  rcases byte with digit | listed
  · exact Text.isSpace_eq_false_of_isDigit digit
  · simp only [List.mem_cons, List.not_mem_nil, or_false] at listed
    rcases listed with rfl | rfl | rfl | rfl | rfl <;> decide

theorem NumeralByte.baseOfLetter? {b : UInt8} (byte : NumeralByte b) : Value.baseOfLetter? b = none := by
  rcases byte with digit | listed
  · simp only [Text.isDigit, Bool.and_eq_true, decide_eq_true_eq] at digit
    exact Value.baseOfLetter?_of_lt (UInt8.lt_of_le_of_lt digit.2 (by decide))
  · simp only [List.mem_cons, List.not_mem_nil, or_false] at listed
    rcases listed with rfl | rfl | rfl | rfl | rfl <;> decide

theorem Digits.bytes (digits : Digits t) : ∀ b ∈ t, NumeralByte b :=
  fun b member => .inl (List.all_eq_true.mp digits.2 b member)

/-- Digits do not begin with a sign. -/
theorem Digits.head_ne_sign (digits : Digits t) : ∀ b ∈ t.head?, b ≠ 43 ∧ b ≠ 45 := by
  obtain ⟨b, r, rfl, digit⟩ := digits.begins
  rintro c ⟨⟩
  constructor
  all_goals
    rintro rfl
    cases digit

theorem Sign.bytes (sign : Sign) : ∀ b ∈ sign.text, NumeralByte b := by
  cases sign <;> simp [Sign.text, NumeralByte]

theorem Exponent.Legal.bytes {e : Exponent} (legal : e.Legal) : ∀ b ∈ e.text, NumeralByte b := by
  have letter : NumeralByte e.letter := by
    rcases legal.letter with lower | upper
    · rw [lower]
      exact .inr (by decide)
    · rw [upper]
      exact .inr (by decide)
  exact List.forall_mem_cons.mpr
    ⟨letter, List.forall_mem_append.mpr ⟨e.sign.bytes, legal.digits.bytes⟩⟩

section Parts

variable {whole : Text} {fraction : Option Text} {power : Option Exponent}
  (digits : whole.all Text.isDigit = true) (digits' : ∀ run ∈ fraction, run.all Text.isDigit = true)
  (legal : ∀ e ∈ power, e.Legal)

include digits digits' legal in
theorem bytes_of_parts :
    ∀ b ∈ whole ++ (fraction.elim [] (46 :: ·) ++ power.elim [] Exponent.text), NumeralByte b := by
  have all {run : Text} (digits : run.all Text.isDigit = true) : ∀ b ∈ run, NumeralByte b :=
    fun b member => .inl (List.all_eq_true.mp digits b member)
  refine List.forall_mem_append.mpr ⟨all digits, List.forall_mem_append.mpr ⟨?_, ?_⟩⟩
  · cases part : fraction with
    | none => exact fun b none => absurd none List.not_mem_nil
    | some run => exact List.forall_mem_cons.mpr ⟨.inr (by decide), all (digits' run part)⟩
  · cases part : power with
    | none => exact fun b none => absurd none List.not_mem_nil
    | some e => exact (legal e part).bytes

include digits legal in
/-- A point or an exponent is no digit. -/
theorem all_isDigit_parts_iff :
    (whole ++ (fraction.elim [] (46 :: ·) ++ power.elim [] Exponent.text)).all Text.isDigit = true ↔
      fraction = none ∧ power = none := by
  constructor
  · intro all
    rw [List.all_append, List.all_append, Bool.and_eq_true, Bool.and_eq_true] at all
    obtain ⟨_, point, letter⟩ := all
    constructor
    · cases part : fraction with
      | none => rfl
      | some run =>
        rw [part] at point
        cases point
    · cases part : power with
      | none => rfl
      | some e =>
        rw [part] at letter
        rcases (legal e part).letter with lower | upper
        · simp [Exponent.text, lower, Text.isDigit] at letter
        · simp [Exponent.text, upper, Text.isDigit] at letter
  · rintro ⟨rfl, rfl⟩
    simpa using digits

end Parts

namespace Numeral

theorem Legal.unsigned_bytes (legal : n.Legal .lenient) : ∀ b ∈ n.magnitude, NumeralByte b :=
  bytes_of_parts legal.whole.2 (fun run part => (legal.fraction run part).2) legal.exponent

theorem Legal.bytes (legal : n.Legal .lenient) : ∀ b ∈ n.text, NumeralByte b := by
  unfold text
  split
  · exact List.forall_mem_cons.mpr ⟨.inr (by decide), legal.unsigned_bytes⟩
  · exact legal.unsigned_bytes

theorem Legal.magnitude_ne_nil (legal : n.Legal .lenient) : n.magnitude ≠ [] :=
  List.append_ne_nil_of_left_ne_nil legal.whole.1 _

theorem Legal.text_ne_nil (legal : n.Legal .lenient) : n.text ≠ [] := by
  rw [text]
  split
  · exact List.cons_ne_nil _ _
  · exact legal.magnitude_ne_nil

theorem Legal.skipSpace_text (legal : n.Legal .lenient) : skipSpace n.text = n.text := by
  cases spelled : n.text with
  | nil => rfl
  | cons b t => exact skipSpace_cons (legal.bytes b (by simp [spelled])).isSpace

theorem IsWhole.magnitude (whole : n.IsWhole) : n.magnitude = n.whole := by
  rw [Numeral.magnitude, whole.1, whole.2]
  exact List.append_nil _

theorem Legal.head_ne_sign (legal : n.Legal .lenient) :
    ∀ b ∈ n.magnitude.head?, b ≠ 43 ∧ b ≠ 45 := by
  obtain ⟨b, r, begins, _⟩ := legal.whole.begins
  have first := legal.whole.head_ne_sign
  rw [magnitude, begins]
  rwa [begins] at first

end Numeral
end Json

namespace Value

theorem baseLiteral?_eq_none (plain : ∀ b ∈ t, baseOfLetter? b = none) : baseLiteral? t = none := by
  unfold baseLiteral?
  split
  · rw [plain _ (List.mem_cons_of_mem _ List.mem_cons_self)]
  · rfl

/-- A sign is split off what does not begin with a sign itself. -/
theorem splitSign_append (sign : Sign) (plain : ∀ b ∈ t.head?, b ≠ 43 ∧ b ≠ 45) :
    splitSign (sign.text ++ t) = (sign == .minus, t) := by
  cases sign with
  | plus | minus => rfl
  | absent =>
    change splitSign t = (false, t)
    unfold splitSign
    split
    · exact absurd rfl (plain _ rfl).2
    · exact absurd rfl (plain _ rfl).1
    · rfl

theorem splitSign_text (legal : n.Legal .lenient) : splitSign n.text = (n.negative, n.magnitude) := by
  rw [Numeral.text]
  cases n.negative with
  | true => rfl
  | false => exact splitSign_append .absent legal.head_ne_sign

theorem exponent?_text {e : Exponent} (legal : e.Legal) : exponent? e.text = some e.power := by
  obtain ⟨letter, sign, digits⟩ := e
  obtain ⟨known, filled⟩ := legal
  simp only [Exponent.text, exponent?, splitSign_append sign filled.head_ne_sign]
  rw [if_pos ⟨known, filled⟩]
  cases sign <;> rfl

section Parts

variable {whole : Text} {fraction : Option Text} {power : Option Exponent}

/-- An unsigned decimal number is read by its parts. -/
theorem decimal?_parts (digits : whole.all Text.isDigit = true)
    (digits' : ∀ run ∈ fraction, run.all Text.isDigit = true)
    (some : whole ≠ [] ∨ fraction.getD [] ≠ []) (legal : ∀ e ∈ power, e.Legal) (negative : Bool) :
    decimal? negative (whole ++ (fraction.elim [] (46 :: ·) ++ power.elim [] Exponent.text)) =
      Option.some (.ofParts negative whole (fraction.getD []) (power.elim 0 Exponent.power)) := by
  have behind : ∀ b ∈ (power.elim [] Exponent.text ++ []).head?,
      Text.isDigit b = false ∧ b ≠ 46 := head_exponent legal nofun
  rw [List.append_nil] at behind
  have ends := fun b first => (behind b first).1
  have taken := Text.takeWhile_isDigit_append digits (head_fraction fraction ends)
  have dropped := Text.dropWhile_isDigit_append digits (head_fraction fraction ends)
  have powers : exponent? (power.elim [] Exponent.text) = Option.some (power.elim 0 Exponent.power) := by
    cases part : power with
    | none => rfl
    | some e => exact exponent?_text (legal e part)
  unfold decimal?
  simp only [taken, dropped]
  cases part : fraction with
  | none =>
    have filled : whole ≠ [] := by simpa [part] using some
    have skipped : Text.skip? 46 (power.elim [] Exponent.text) = none := by
      cases rest : power.elim [] Exponent.text with
      | nil => rfl
      | cons b t => rw [Text.skip?, if_neg (behind b (by rw [rest]; rfl)).2]
    simp [skipped, powers, filled]
  | some run =>
    rw [part, Option.getD_some] at some
    have filled : ¬ (whole = [] ∧ run = []) := by tauto
    simp [Text.skip?, Text.takeWhile_isDigit_append (digits' run part) ends,
      Text.dropWhile_isDigit_append (digits' run part) ends, powers, filled]

end Parts

theorem decimal?_magnitude (legal : n.Legal .lenient) :
    decimal? n.negative n.magnitude = some n.decimal :=
  decimal?_parts legal.whole.2 (fun run part => (legal.fraction run part).2) (.inl legal.whole.1)
    legal.exponent n.negative

theorem all_isDigit_magnitude_iff (legal : n.Legal .lenient) :
    n.magnitude.all Text.isDigit = true ↔ n.IsWhole :=
  all_isDigit_parts_iff legal.whole.2 legal.exponent

/-- Behind a sign that is left out or not, bytes of numerals go to the two readers of decimal numbers, told
apart by whether all of them are digits. -/
theorem ofNumeral_signed (sign : Sign) (filled : t ≠ []) (plain : ∀ b ∈ t.head?, b ≠ 43 ∧ b ≠ 45)
    (bytes : ∀ b ∈ t, NumeralByte b) : ofNumeral (sign.text ++ t) =
      if t.all Text.isDigit then ofDigits (sign == .minus) t
      else match decimal? (sign == .minus) t with
        | some decimal => double decimal.toBinary64
        | none => double .nan := by
  have split := splitSign_append sign plain
  have noBase : baseLiteral? (sign.text ++ t) = none := by
    have all := List.forall_mem_append.mpr ⟨sign.bytes, bytes⟩
    exact baseLiteral?_eq_none fun b member => (all b member).baseOfLetter?
  have noWord : t ≠ Text.ofString "Infinity" := by
    rintro rfl
    rcases bytes 73 (by decide) with digit | listed
    · cases digit
    · exact absurd listed (by decide)
  have written : sign.text ++ t ≠ [] := List.append_ne_nil_of_right_ne_nil _ filled
  unfold ofNumeral
  cases read : decimal? (sign == .minus) t <;>
    simp only [split, if_neg written, if_neg noWord, noBase, ne_eq, filled, not_false_eq_true, true_and,
      read]

/-- A numeral is taken for its value. -/
theorem ofNumeral_text (legal : n.Legal .lenient) : ofNumeral n.text = n.value := by
  have spelled : n.text = (if n.negative then Sign.minus else .absent).text ++ n.magnitude := by
    unfold Numeral.text
    cases n.negative <;> rfl
  have negative : ((if n.negative then Sign.minus else .absent) == .minus) = n.negative := by
    cases n.negative <;> rfl
  rw [spelled, ofNumeral_signed _ legal.magnitude_ne_nil legal.head_ne_sign legal.unsigned_bytes, negative,
    ← numberValue_eq]
  split
  · rename_i whole
    have parts := (all_isDigit_magnitude_iff legal).mp whole
    simp [Numeral.magnitude, parts.1, parts.2, numberValue]
  · rename_i parts
    rw [decimal?_magnitude legal]
    have parts : ¬ n.IsWhole := fun whole => parts ((all_isDigit_magnitude_iff legal).mpr whole)
    rw [numberValue_eq, Numeral.value_of_not_fits fun fits => parts fits.1]

/-- The real number that a number is. -/
noncomputable def real? : Value → Option EReal
  | int n => some ((n.toInt : ℝ) : EReal)
  | double x => x.real?
  | _ => none

/-- A value coerced to a text, and the text to a number. -/
def throughText (v : Value) : Run Value := do
  Coercion.number.apply (← Coercion.string.apply v)

theorem throughText_eq (v : Value) : throughText v = pure (ofNumeral v.toText.trim) := rfl

theorem throughText_of_numeral {v : Value} (legal : n.Legal .lenient) (written : v.toText = n.text) :
    throughText v = pure n.value := by
  have solid := Text.trim_eq_self fun b member => (legal.bytes b member).isSpace
  rw [throughText_eq, written, solid, ofNumeral_text legal]

theorem throughText_infinity (negative : Bool) :
    throughText (double (.infinity negative)) = pure (double (.infinity negative)) := by
  rw [throughText_eq]
  cases negative <;> rfl

theorem throughText_nan : throughText (double .nan) = pure (double .nan) := rfl

/-- Infinities and not-a-number are no integers. -/
theorem simplest_of_not_finite {x : Binary64} (limit : x.isFinite = false) : x.Simplest (double x) := by
  refine .inr ⟨rfl, fun m => ?_⟩
  cases x with
  | nan => exact (Option.some_ne_none _).symm
  | infinity negative =>
    cases negative with
    | true => simp [Binary64.real?]
    | false => simp [Binary64.real?]
  | finite => cases limit

theorem real?_of_simplest {x : Binary64} {w : Value} (simplest : x.Simplest w) : w.real? = x.real? := by
  rcases simplest with ⟨m, rfl, real⟩ | ⟨rfl, _⟩
  · exact real.symm
  · rfl

/-- A number that is coerced to a text and back is the same number: an integer the same integer, and a
double the integer that it is, if 64 bits hold that, or else itself. A negative zero becomes the integer
zero. -/
theorem throughText_number :
    (∀ n : Int64, throughText (int n) = pure (int n)) ∧
    (∀ x : Binary64, ∃ w, throughText (double x) = pure w ∧ w.real? = x.real? ∧ x.Simplest w) ∧
    throughText (double (.finite true Magnitude.zero)) = pure (int 0) ∧
    (∀ negative, throughText (double (.infinity negative)) = pure (double (.infinity negative))) ∧
    throughText (double .nan) = pure (double .nan) := by
  refine ⟨?_, ?_, rfl, throughText_infinity, throughText_nan⟩
  · intro n
    obtain ⟨m, legal, written, value⟩ := int_text n
    have coerced : throughText (int n) = pure m.value :=
      throughText_of_numeral legal (by rw [toText, written])
    rwa [value] at coerced
  · intro x
    obtain ⟨w, coerced, simplest⟩ : ∃ w, throughText (double x) = pure w ∧ x.Simplest w := by
      cases x with
      | nan => exact ⟨_, throughText_nan, simplest_of_not_finite rfl⟩
      | infinity negative => exact ⟨_, throughText_infinity negative, simplest_of_not_finite rfl⟩
      | finite negative size =>
        obtain ⟨n, legal, written, simplest⟩ := finite_text negative size
        exact ⟨_, throughText_of_numeral legal (by rw [toText, written]), simplest⟩
    exact ⟨w, coerced, real?_of_simplest simplest, simplest⟩

end Value
end Schemata

import Schemata.Proofs.Value.BaseDigits

/-! Texts that denote numbers, apart from the reader: nothing at all, `Infinity`, digits of base 16, 8 or 2
behind their prefix, an integer, or a decimal number with a point or an exponent. The reader takes exactly
these, once the blanks at both ends are gone, and each for the number that it denotes. -/
namespace Schemata

open Json (Sign Exponent Digits NumeralByte hexValues)
open Binary64 (unitSign)

namespace Value

variable {base : Nat} {b letter : UInt8} {t digits whole : Text} {fraction : Option Text}
  {power : Option Exponent}

/-- The letters of the bases in both cases. -/
def baseLetters : List (UInt8 × Nat) := [(120, 16), (88, 16), (111, 8), (79, 8), (98, 2), (66, 2)]

/-- A digit below the base, of those that hexadecimal numbers are written with. -/
def IsBaseDigit (base : Nat) (b : UInt8) : Prop := ∃ value < base, (b, value) ∈ hexValues

/-- Digits before and behind a point, one of them at least, and an exponent. -/
structure DecimalParts (whole : Text) (fraction : Option Text) (power : Option Exponent) : Prop where
  before : whole.all Text.isDigit = true
  behind : ∀ run ∈ fraction, run.all Text.isDigit = true
  filled : whole ≠ [] ∨ fraction.getD [] ≠ []
  powers : ∀ e ∈ power, e.Legal

/-- A text that denotes a number, by its parts. -/
inductive NumberText where
  | empty
  | infinity (sign : Sign)
  | based (letter : UInt8) (digits : Text)
  | integer (sign : Sign) (digits : Text)
  | decimal (sign : Sign) (whole : Text) (fraction : Option Text) (power : Option Exponent)

namespace NumberText

def text : NumberText → Text
  | empty => []
  | infinity sign => sign.text ++ Text.ofString "Infinity"
  | based letter digits => 48 :: letter :: digits
  | integer sign digits => sign.text ++ digits
  | decimal sign whole fraction power =>
    sign.text ++ (whole ++ (fraction.elim [] (46 :: ·) ++ power.elim [] Exponent.text))

/-- A decimal number has a point or an exponent, or it would be an integer. -/
def Legal : NumberText → Prop
  | empty | infinity _ => True
  | based letter digits => ∃ base, (letter, base) ∈ baseLetters ∧ digits ≠ [] ∧
      ∀ b ∈ digits, IsBaseDigit base b
  | integer _ digits => Digits digits
  | decimal _ whole fraction power =>
    DecimalParts whole fraction power ∧ (fraction ≠ none ∨ power ≠ none)

/-- The value of a text: an integer that 64 bits hold is that integer, any other decimal number is the
double nearest to it, with its sign even if it is a zero. -/
def Denotes : NumberText → Value → Prop
  | empty, v => v = int 0
  | infinity sign, v => v = double (.infinity (sign == .minus))
  | based letter digits, v => ∀ base, (letter, base) ∈ baseLetters →
      (baseNumber base digits < 2 ^ 53 ∧ ∃ n : Int64, v = int n ∧ n.toInt = baseNumber base digits) ∨
      (2 ^ 53 ≤ baseNumber base digits ∧ ∃ x, v = double x ∧ x ≠ .nan)
  | integer sign digits, v =>
      (∀ n : Int64, n.toInt = sign.apply digits.toNat → v = int n) ∧
      ((∀ n : Int64, n.toInt ≠ sign.apply digits.toNat) → ∃ x, v = double x ∧
        x.Nearest (sign.apply digits.toNat) ∧ x.negative? = some (sign == .minus))
  | decimal sign whole fraction power, v => ∃ x, v = double x ∧
      x.Nearest (unitSign (sign == .minus) *
        ((whole.toNat + (fraction.getD []).toNat / 10 ^ (fraction.getD []).length) *
          10 ^ power.elim 0 Exponent.power)) ∧
      x.negative? = some (sign == .minus)

end NumberText

section Bases

theorem eq_of_lowerByte {c : UInt8} (same : Text.lowerByte b = c) : b = c ∨ b = c - 32 := by
  unfold Text.lowerByte at same
  split at same
  · exact .inr (by rw [← same, UInt8.add_sub_cancel])
  · exact .inl same

theorem baseOfLetter?_eq_some_iff : baseOfLetter? letter = some base ↔ (letter, base) ∈ baseLetters := by
  constructor
  · intro known
    unfold baseOfLetter? at known
    split_ifs at known with sixteen eight two
    · cases known
      rcases eq_of_lowerByte sixteen with rfl | rfl <;> decide
    · cases known
      rcases eq_of_lowerByte eight with rfl | rfl <;> decide
    · cases known
      rcases eq_of_lowerByte two with rfl | rfl <;> decide
  · intro listed
    have all : baseLetters.all (fun pair => baseOfLetter? pair.1 == some pair.2) = true := by decide
    exact eq_of_beq (List.all_eq_true.mp all _ listed)

theorem base_le_sixteen (listed : (letter, base) ∈ baseLetters) : base ≤ 16 := by
  have all : baseLetters.all (fun pair => pair.2 ≤ 16) = true := by decide
  exact of_decide_eq_true (List.all_eq_true.mp all _ listed)

theorem isBaseDigit_iff (small : base ≤ 16) : IsBaseDigit base b ↔ isDigitOf base b = true := by
  have sixteen : isDigitOf base b = true ↔ isDigitOf 16 b = true ∧ digitValue b < base := by
    simp only [isDigitOf, Bool.and_eq_true, decide_eq_true_eq]
    constructor
    · rintro ⟨digit, less⟩
      exact ⟨⟨digit, less.trans_le small⟩, less⟩
    · rintro ⟨⟨digit, _⟩, less⟩
      exact ⟨digit, less⟩
  rw [sixteen]
  constructor
  · rintro ⟨value, less, listed⟩
    have all : ∀ pair ∈ hexValues, isDigitOf 16 pair.1 = true ∧ digitValue pair.1 = pair.2 := by decide
    obtain ⟨digit, same⟩ := all _ listed
    exact ⟨digit, same.trans_lt less⟩
  · rintro ⟨digit, less⟩
    have all : ∀ n < 256, isDigitOf 16 (.ofNat n) = true →
        (UInt8.ofNat n, digitValue (.ofNat n)) ∈ hexValues := by decide +kernel
    have listed := all b.toNat (UInt8.toNat_lt b)
    rw [UInt8.ofNat_toNat] at listed
    exact ⟨_, less, listed digit⟩

end Bases

section Complete

theorem unitSign_mul (sign : Sign) (n : Nat) : unitSign (sign == .minus) * n = sign.apply n := by
  cases sign <;> simp [unitSign, Sign.apply]

/-- Digits are an integer if 64 bits hold it, and else the nearest double. -/
theorem ofDigits_denotes (sign : Sign) (digits : Text) :
    (NumberText.integer sign digits).Denotes (ofDigits (sign == .minus) digits) := by
  have number : (if (sign == .minus) = true then -(digits.toNat : Int) else digits.toNat) =
      sign.apply digits.toNat := by
    cases sign <;> rfl
  unfold ofDigits
  dsimp only
  rw [number]
  split
  · rename_i fits
    have exact : (Int64.ofInt (sign.apply digits.toNat)).toInt = sign.apply digits.toNat := by
      rw [Int64.toInt_minValue, Int64.toInt_maxValue] at fits
      exact Int64.toInt_ofInt_of_le (by omega) (by omega)
    refine ⟨fun n same => ?_, fun wide => absurd exact (wide _)⟩
    rw [← same, Int64.ofInt_toInt]
  · rename_i wide
    refine ⟨fun n same => absurd ?_ wide, fun _ => ⟨_, rfl, ?_, Decimal.negative?_toBinary64 _⟩⟩
    · rw [← same]
      exact ⟨Int64.minValue_le_toInt n, Int64.toInt_le n⟩
    · have near := Decimal.nearest_toBinary64 (.ofParts (sign == .minus) digits [] 0)
      rw [Decimal.value_ofParts] at near
      simpa [Text.toNat, unitSign_mul] using near

theorem ofNumeral_integer (sign : Sign) (legal : Digits t) :
    ofNumeral (sign.text ++ t) = ofDigits (sign == .minus) t := by
  rw [ofNumeral_signed sign legal.1 legal.head_ne_sign legal.bytes, if_pos legal.2]

theorem ofNumeral_infinity (sign : Sign) :
    ofNumeral (sign.text ++ Text.ofString "Infinity") = double (.infinity (sign == .minus)) := by
  cases sign <;> rfl

namespace DecimalParts

variable (parts : DecimalParts whole fraction power)

include parts

/-- The number does not begin with a sign of its own. -/
theorem head_ne_sign :
    ∀ b ∈ (whole ++ (fraction.elim [] (46 :: ·) ++ power.elim [] Exponent.text)).head?,
      b ≠ 43 ∧ b ≠ 45 := by
  intro b first
  by_cases some : whole = []
  · cases fraction with
    | none => exact absurd rfl (parts.filled.resolve_left (not_not.mpr some))
    | some run =>
      rw [some] at first
      cases first
      decide
  · have digits : Digits whole := ⟨some, parts.before⟩
    refine digits.head_ne_sign b ?_
    rwa [List.head?_append_of_ne_nil _ some] at first

theorem ne_nil : whole ++ (fraction.elim [] (46 :: ·) ++ power.elim [] Exponent.text) ≠ [] := by
  rcases parts.filled with filled | filled
  · exact List.append_ne_nil_of_left_ne_nil filled _
  · cases fraction with
    | none => exact absurd rfl filled
    | some run => exact List.append_ne_nil_of_right_ne_nil _ (List.cons_ne_nil _ _)

theorem ofNumeral_eq (sign : Sign) (point : fraction ≠ none ∨ power ≠ none) :
    ofNumeral (NumberText.decimal sign whole fraction power).text =
      double (Decimal.ofParts (sign == .minus) whole (fraction.getD [])
        (power.elim 0 Exponent.power)).toBinary64 := by
  have bytes := Json.bytes_of_parts parts.before parts.behind parts.powers
  have mixed : ¬ (whole ++ (fraction.elim [] (46 :: ·) ++ power.elim [] Exponent.text)).all
      Text.isDigit = true := by
    rw [Json.all_isDigit_parts_iff parts.before parts.powers]
    exact fun absent => point.elim (absurd absent.1) (absurd absent.2)
  rw [NumberText.text, ofNumeral_signed sign parts.ne_nil parts.head_ne_sign bytes, if_neg mixed,
    decimal?_parts parts.before parts.behind parts.filled parts.powers]

end DecimalParts

/-- A literal is an integer or a double. -/
theorem baseLiteral_denotes (legal : (NumberText.based letter digits).Legal) :
    (NumberText.based letter digits).Denotes (ofNumeral (48 :: letter :: digits)) := by
  intro base listed
  obtain ⟨base', listed', filled, run⟩ := legal
  have known := baseOfLetter?_eq_some_iff.mpr listed
  obtain rfl : base = base' :=
    Option.some.inj (known.symm.trans (baseOfLetter?_eq_some_iff.mpr listed'))
  have legal : digits.all (isDigitOf base) = true :=
    List.all_eq_true.mpr fun b member => (isBaseDigit_iff (base_le_sixteen listed)).mp (run b member)
  rw [ofNumeral_baseLiteral (baseLiteral?_eq_some_iff.mpr ⟨letter, rfl, known, filled, legal⟩)]
  rcases Nat.lt_or_ge (baseNumber base digits) (2 ^ 53) with small | large
  · exact .inl ⟨small, ofBaseDigits_small known legal small⟩
  · obtain ⟨lead, rest, leading⟩ := exists_leading large
    exact .inr ⟨large, _, ofBaseDigits_large known legal leading, (Binary64.nearest_ofInt _).ne_nan⟩

/-- What a legal text is taken for is what it denotes. -/
theorem ofNumeral_denotes {n : NumberText} (legal : n.Legal) : n.Denotes (ofNumeral n.text) := by
  cases n with
  | empty => exact rfl
  | infinity sign => exact ofNumeral_infinity sign
  | based letter digits => exact baseLiteral_denotes legal
  | integer sign digits =>
    rw [NumberText.text, ofNumeral_integer sign legal]
    exact ofDigits_denotes sign digits
  | decimal sign whole fraction power =>
    obtain ⟨parts, point⟩ := legal
    refine ⟨_, parts.ofNumeral_eq sign point, ?_, Decimal.negative?_toBinary64 _⟩
    rw [← Decimal.value_ofParts]
    exact Decimal.nearest_toBinary64 _

/-- No text denotes not-a-number. -/
theorem NumberText.Denotes.ne_nan {n : NumberText} {v : Value} (legal : n.Legal) (denotes : n.Denotes v) :
    v ≠ double .nan := by
  have apart {x : Binary64} (number : x ≠ .nan) : double x ≠ double .nan := by
    rintro ⟨⟩
    exact number rfl
  cases n with
  | empty =>
    obtain rfl : v = int 0 := denotes
    nofun
  | infinity sign =>
    obtain rfl : v = double (.infinity (sign == .minus)) := denotes
    nofun
  | based letter digits =>
    obtain ⟨base, listed, _⟩ := legal
    rcases denotes base listed with ⟨_, n, rfl, _⟩ | ⟨_, x, rfl, number⟩
    · nofun
    · exact apart number
  | integer sign digits =>
    by_cases fits : ∃ n : Int64, n.toInt = sign.apply digits.toNat
    · obtain ⟨n, same⟩ := fits
      obtain rfl := denotes.1 n same
      nofun
    · obtain ⟨x, rfl, near, _⟩ := denotes.2 (not_exists.mp fits)
      exact apart near.ne_nan
  | decimal =>
    obtain ⟨x, rfl, near, _⟩ := denotes
    exact apart near.ne_nan

end Complete

section Sound

theorem exists_sign (t : Text) : ∃ sign : Sign, t = sign.text ++ (splitSign t).2 := by
  fun_cases splitSign t
  · exact ⟨.minus, rfl⟩
  · exact ⟨.plus, rfl⟩
  · exact ⟨.absent, rfl⟩

theorem parts_of_exponent? {p : Int} (read : exponent? t = some p) :
    ∃ power : Option Exponent, (∀ e ∈ power, e.Legal) ∧ t = power.elim [] Exponent.text := by
  cases t with
  | nil => exact ⟨none, nofun, rfl⟩
  | cons letter t =>
    obtain ⟨sign, spelled⟩ := exists_sign t
    by_cases legal : (letter = 101 ∨ letter = 69) ∧ Digits (splitSign t).2
    · refine ⟨some ⟨letter, sign, (splitSign t).2⟩, ?_, ?_⟩
      · rintro e ⟨⟩
        exact ⟨legal.1, legal.2⟩
      · rw [Option.elim_some, Exponent.text, ← spelled]
    · have refused : exponent? (letter :: t) = none := if_neg legal
      cases refused.symm.trans read

theorem parts_of_decimal? {negative : Bool} {d : Decimal} (read : decimal? negative t = some d) :
    ∃ whole fraction power, DecimalParts whole fraction power ∧
      t = whole ++ (fraction.elim [] (46 :: ·) ++ power.elim [] Exponent.text) := by
  have spelled : t.takeWhile Text.isDigit ++ t.dropWhile Text.isDigit = t :=
    List.takeWhile_append_dropWhile
  unfold decimal? at read
  dsimp only at read
  cases point : Text.skip? 46 (t.dropWhile Text.isDigit) with
  | none =>
    simp only [point, and_true] at read
    split_ifs at read with empty
    obtain ⟨p, exponent, _⟩ := Option.map_eq_some_iff.mp read
    obtain ⟨power, legal, same⟩ := parts_of_exponent? exponent
    refine ⟨_, none, power, ⟨List.all_takeWhile, nofun, .inl empty, legal⟩, ?_⟩
    rw [Option.elim_none, List.nil_append, ← same, spelled]
  | some rest =>
    simp only [point] at read
    split_ifs at read with empty
    obtain ⟨p, exponent, _⟩ := Option.map_eq_some_iff.mp read
    obtain ⟨power, legal, same⟩ := parts_of_exponent? exponent
    have behind : rest = rest.takeWhile Text.isDigit ++ power.elim [] Exponent.text := by
      rw [← same, List.takeWhile_append_dropWhile]
    refine ⟨_, some (rest.takeWhile Text.isDigit), power,
      ⟨List.all_takeWhile, ?_, not_and_or.mp empty, legal⟩, ?_⟩
    · rintro run ⟨⟩
      exact List.all_takeWhile
    · rw [Option.elim_some, List.cons_append, ← behind, ← Text.skip?_eq_some_iff.mp point, spelled]

/-- What is taken for a number is a legal text. -/
theorem exists_numberText (number : ofNumeral t ≠ double .nan) :
    ∃ n : NumberText, n.Legal ∧ n.text = t := by
  obtain ⟨sign, spelled⟩ := exists_sign t
  by_cases empty : t = []
  · exact ⟨.empty, trivial, empty.symm⟩
  by_cases word : (splitSign t).2 = Text.ofString "Infinity"
  · exact ⟨.infinity sign, trivial, by rw [NumberText.text, ← word, ← spelled]⟩
  by_cases digits : Digits (splitSign t).2
  · exact ⟨.integer sign (splitSign t).2, digits, spelled.symm⟩
  cases read : baseLiteral? t with
  | some literal =>
    obtain ⟨letter, rfl, known, filled, legal⟩ := baseLiteral?_eq_some_iff.mp read
    have listed := baseOfLetter?_eq_some_iff.mp known
    refine ⟨.based letter literal.2, ⟨literal.1, listed, filled, fun b member => ?_⟩, rfl⟩
    exact (isBaseDigit_iff (base_le_sixteen listed)).mpr (List.all_eq_true.mp legal b member)
  | none =>
    cases part : decimal? (splitSign t).1 (splitSign t).2 with
    | some d =>
      obtain ⟨whole, fraction, power, parts, same⟩ := parts_of_decimal? part
      refine ⟨.decimal sign whole fraction power, ⟨parts, ?_⟩, ?_⟩
      · by_contra absent
        rw [not_or, not_not, not_not] at absent
        obtain ⟨rfl, rfl⟩ := absent
        have filled : whole ≠ [] := parts.filled.resolve_right fun none => none rfl
        have only : (splitSign t).2 = whole := same.trans (List.append_nil whole)
        rw [only] at digits
        exact digits ⟨filled, parts.before⟩
      · rw [NumberText.text, ← same, ← spelled]
    | none =>
      refine absurd ?_ number
      unfold ofNumeral
      simp only [if_neg empty, if_neg word, read, part]
      exact if_neg digits

end Sound

/-- A text is a number exactly if, without the blanks at its ends, it is nothing, an infinity, digits in base
16, 8 or 2, an integer or a decimal number, each in full; the number is the one that it denotes. -/
theorem toNumber_string (s : Text) : s.Stripped s.trim ∧
    (toNumber (string s) = double .nan ↔ ∀ n : NumberText, n.Legal → n.text ≠ s.trim) ∧
    ∀ n : NumberText, n.Legal → n.text = s.trim → n.Denotes (toNumber (string s)) := by
  have denotes (n : NumberText) (legal : n.Legal) (same : n.text = s.trim) :
      n.Denotes (toNumber (string s)) := by
    rw [toNumber, ← same]
    exact ofNumeral_denotes legal
  refine ⟨Text.stripped_trim s, ⟨fun nan n legal same => ?_, fun none => ?_⟩, denotes⟩
  · exact (denotes n legal same).ne_nan legal nan
  · by_contra number
    obtain ⟨n, legal, same⟩ := exists_numberText number
    exact none n legal same

end Value
end Schemata

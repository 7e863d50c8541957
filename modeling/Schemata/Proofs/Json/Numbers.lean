import Schemata.Proofs.Json.Tokens
import Schemata.Proofs.Number.Reals
import Schemata.Proofs.Value.Equality

/-! Numbers in print. A number that is not infinite is printed as a numeral. Whatever form this has, its
digits and its power of ten are nearest to the number, and only an integer below 10^21 has neither point
nor exponent and is printed in full. So the numeral has the value of the number: the integer that it is,
if 64 bits hold that, and else the double. -/
namespace Schemata

open Binary64 (unitsPerOne signedUnits)

variable {negative : Bool} {size : Magnitude} {digits : Text} {first : Int}

theorem Binary64.ofUnits_sign {num den : Nat} (near : ofUnits false num den = finite false size)
    (negative : Bool) : ofUnits negative num den = finite negative size := by
  by_cases small : nearestUnits num den < unitLimit
  · rw [ofUnits, dif_pos small] at near ⊢
    cases near
    rfl
  · rw [ofUnits, dif_neg small] at near
    cases near

/-- Only the sign of the outcome depends on the sign. -/
theorem Decimal.toBinary64_sign {n : Nat} {power : Int}
    (reads : Decimal.toBinary64 ⟨false, n, power⟩ = .finite false size) (negative : Bool) :
    Decimal.toBinary64 ⟨negative, n, power⟩ = .finite negative size := by
  unfold Decimal.toBinary64 at reads ⊢
  dsimp only at reads ⊢
  by_cases none : n = 0
  · rw [if_pos none] at reads ⊢
    cases reads
    rfl
  rw [if_neg none] at reads ⊢
  by_cases large : 309 ≤ power
  · rw [if_pos large] at reads
    cases reads
  rw [if_neg large] at reads ⊢
  by_cases low : power + (n.log2 + 1) < -324
  · rw [if_pos low] at reads ⊢
    cases reads
    rfl
  rw [if_neg low] at reads ⊢
  by_cases whole : 0 ≤ power
  · rw [if_pos whole] at reads ⊢
    exact Binary64.ofUnits_sign reads negative
  · rw [if_neg whole] at reads ⊢
    exact Binary64.ofUnits_sign reads negative

theorem Decimal.toBinary64_whole {n : Nat} (some : n ≠ 0) :
    Decimal.toBinary64 ⟨negative, n, 0⟩ = .ofUnits negative (n * Binary64.unitsPerOne) 1 := by
  unfold Decimal.toBinary64
  simp only
  rw [if_neg some, if_neg (by decide), if_neg (by omega), if_pos (by decide)]
  simp

/-- An integer that is printed in full. -/
def Magnitude.InFull (size : Magnitude) : Prop :=
  size.units % unitsPerOne = 0 ∧ size.units < Nat.pow 10 21 * unitsPerOne

instance (size : Magnitude) : Decidable size.InFull := inferInstanceAs (Decidable (_ ∧ _))

/-- The simplest value of a number: an integer, if the number is one that 64 bits hold, and else the double
itself. -/
def Binary64.Simplest (x : Binary64) (w : Value) : Prop :=
  (∃ m : Int64, w = .int m ∧ x.real? = some ((m.toInt : ℝ) : EReal)) ∨
    (w = .double x ∧ ∀ m : Int64, x.real? ≠ some ((m.toInt : ℝ) : EReal))

theorem Binary64.real?_finite_iff {k : Int} : (finite negative size).real? = some ((k : ℝ) : EReal) ↔
    signedUnits negative size = k * unitsPerOne := by
  rw [real?, Option.some.injEq, EReal.coe_eq_coe_iff, div_eq_iff unit_pos_real.ne']
  exact_mod_cast Iff.rfl

/-- Every integer that 64 bits hold is printed in full. -/
theorem Magnitude.inFull_of_signedUnits {m : Int64}
    (place : signedUnits negative size = m.toInt * unitsPerOne) : size.InFull := by
  have least := Int64.le_toInt m
  have most := Int64.toInt_lt m
  have units : size.units = m.toInt.natAbs * unitsPerOne := by
    have absolute := congrArg Int.natAbs place
    rw [Int.natAbs_mul, Int.natAbs_natCast] at absolute
    rw [← absolute, signedUnits]
    split <;> simp
  have small : m.toInt.natAbs < Nat.pow 10 21 :=
    Nat.lt_of_le_of_lt (show m.toInt.natAbs ≤ 2 ^ 63 by omega) (by decide)
  rw [InFull, units]
  exact ⟨Nat.mul_mod_left _ _, Nat.mul_lt_mul_of_pos_right small Binary64.unitsPerOne_pos⟩

/-- The simplest value is equal to the number. -/
theorem Binary64.Simplest.equal {w : Value} (simplest : (Binary64.finite negative size).Simplest w) :
    Value.Equal w (.double (.finite negative size)) := by
  rcases simplest with ⟨m, rfl, real⟩ | ⟨rfl, _⟩
  · have place := real?_finite_iff.mp real
    obtain ⟨q, rounded⟩ := exists_place?_ofInt m.toInt
    have placed : (finite negative size).place? = some (signedUnits negative size) := rfl
    obtain ⟨up, down⟩ := place?_ofInt_bounds placed rounded
    rw [Value.equal_integer_double_iff, equal_iff]
    refine ⟨q, rounded, ?_⟩
    rw [placed, Int.le_antisymm (up place.le) (down place.ge)]
  · rw [Value.equal_doubles_iff, equal_iff]
    exact ⟨_, rfl, rfl⟩

namespace Json

namespace Numeral

/-- Spelled without point and exponent. -/
def IsWhole (n : Numeral) : Prop := n.fraction = none ∧ n.exponent = none

/-- Spelled as an integer that 64 bits hold. -/
def Fits (n : Numeral) : Prop :=
  n.IsWhole ∧ Int64.minValue.toInt ≤ n.integer ∧ n.integer ≤ Int64.maxValue.toInt

theorem value_of_fits {n : Numeral} (fits : n.Fits) : n.value = .int (Int64.ofInt n.integer) := by
  obtain ⟨⟨fraction, exponent⟩, least, most⟩ := fits
  rw [value, fraction, exponent, if_pos ⟨rfl, rfl, least, most⟩]

theorem value_of_not_fits {n : Numeral} (wide : ¬ n.Fits) :
    n.value = .double n.decimal.toBinary64 := by
  rw [value, if_neg]
  rintro ⟨fraction, exponent, least, most⟩
  exact wide ⟨⟨Option.isNone_iff_eq_none.mp fraction, Option.isNone_iff_eq_none.mp exponent⟩,
    least, most⟩

/-- The numeral stands for the number. It is nearest to it, and if it is spelled as an integer then it is
one that is printed in full, and exact. -/
structure Spells (n : Numeral) (negative : Bool) (size : Magnitude) : Prop where
  legal : n.Legal .lenient
  sign : n.negative = negative
  nearest : n.decimal.toBinary64 = .finite negative size
  inFull : n.IsWhole ↔ size.InFull
  exact : n.IsWhole → Text.toNat n.whole * unitsPerOne = size.units

section Parts

variable {whole : Text} {part : Option Text} {power : Option Exponent} (filled : Digits whole)
  (behind : part.elim True Digits) (known : power.elim True Exponent.Legal)

include filled behind known

theorem legal_of_parts : Legal .lenient ⟨negative, whole, part, power⟩ := by
  refine ⟨filled, rfl, fun run there => ?_, fun e there => ?_⟩
  · obtain rfl : part = some run := there
    exact behind
  · obtain rfl : power = some e := there
    exact known

theorem spells_of_parts (parts : part ≠ none ∨ power ≠ none) (fractional : ¬ size.InFull)
    (nearest : (decimal ⟨negative, whole, part, power⟩).toBinary64 = .finite negative size) :
    Spells ⟨negative, whole, part, power⟩ negative size := by
  have parted : ¬ IsWhole ⟨negative, whole, part, power⟩ := by
    rintro ⟨noFraction, noExponent⟩
    rcases parts with fraction | exponent
    · exact fraction noFraction
    · exact exponent noExponent
  exact ⟨legal_of_parts filled behind known, rfl, nearest, iff_of_false parted fractional,
    fun whole => absurd whole parted⟩

end Parts

theorem Spells.signedUnits_eq {n : Numeral} (spells : n.Spells negative size) (whole : n.IsWhole) :
    signedUnits negative size = n.integer * unitsPerOne := by
  have units := spells.exact whole
  rw [signedUnits, integer, spells.sign, ← units]
  split
  · rw [Nat.cast_mul, Int.neg_mul]
  · exact Nat.cast_mul ..

/-- A numeral has the simplest value of the number that it stands for. -/
theorem Spells.simplest {n : Numeral} (spells : n.Spells negative size) :
    (Binary64.finite negative size).Simplest n.value := by
  by_cases fits : n.Fits
  · obtain ⟨whole, least, most⟩ := fits
    have lower : Int64.minValue.toInt = -2 ^ 63 := rfl
    have upper : Int64.maxValue.toInt = 2 ^ 63 - 1 := rfl
    refine .inl ⟨_, value_of_fits ⟨whole, least, most⟩, ?_⟩
    rw [Binary64.real?_finite_iff, Int64.toInt_ofInt_of_le (by omega) (by omega)]
    exact spells.signedUnits_eq whole
  · refine .inr ⟨by rw [value_of_not_fits fits, spells.nearest], fun m real => fits ?_⟩
    have place := Binary64.real?_finite_iff.mp real
    have whole := spells.inFull.mpr (Magnitude.inFull_of_signedUnits place)
    have unit : (unitsPerOne : Int) ≠ 0 := by exact_mod_cast Binary64.unitsPerOne_pos.ne'
    have same : n.integer = m.toInt :=
      Int.eq_of_mul_eq_mul_right unit ((spells.signedUnits_eq whole).symm.trans place)
    rw [Fits, same]
    exact ⟨whole, Int64.minValue_le_toInt m, Int64.toInt_le m⟩

end Numeral

open Numeral

theorem digits_zero : Digits [48] := ⟨List.cons_ne_nil _ _, by decide⟩

/-- An exponent as it is printed, with its sign. -/
theorem exists_exponent (power : Int) {places : Text} (filled : Digits places)
    (size : Text.toNat places = power.natAbs) : ∃ e : Exponent, e.Legal ∧ e.power = power ∧
      e.text = 101 :: (if power < 0 then 45 else 43) :: places := by
  by_cases below : power < 0
  · refine ⟨⟨101, .minus, places⟩, ⟨.inl rfl, filled⟩, ?_, by rw [if_pos below]; rfl⟩
    simp only [Exponent.power, Sign.apply, size]
    omega
  · refine ⟨⟨101, .plus, places⟩, ⟨.inl rfl, filled⟩, ?_, by rw [if_neg below]; rfl⟩
    simp only [Exponent.power, Sign.apply, size]
    omega

/-- A number to which so short an integer is nearest is an integer that is printed in full. -/
theorem inFull_of_short (all : digits.all Text.isDigit = true) (few : digits.length ≤ 17)
    (reads : Decimal.toBinary64 ⟨negative, Text.toNat digits, 0⟩ = .finite negative size) :
    size.InFull := by
  by_cases zero : Text.toNat digits = 0
  · rw [zero] at reads
    cases reads
    have none : Magnitude.zero.units = 0 := rfl
    rw [Magnitude.InFull, none, Nat.zero_mod]
    exact ⟨rfl, Nat.mul_pos (by decide) Binary64.unitsPerOne_pos⟩
  · rw [Decimal.toBinary64_whole zero] at reads
    have small : Text.toNat digits ≤ Nat.pow 2 57 := by
      refine Nat.le_of_lt (Nat.lt_of_lt_of_le (Text.toNat_lt digits all) ?_)
      exact Nat.le_trans (Nat.pow_le_pow_right (by decide) few) (by decide)
    refine ⟨Nat.mod_eq_zero_of_dvd (Binary64.unitsPerOne_dvd_units reads), ?_⟩
    refine Nat.lt_of_le_of_lt (Binary64.units_le_two_pow reads small) ?_
    exact Nat.mul_lt_mul_of_pos_right (by decide) Binary64.unitsPerOne_pos

section Forms

variable (filled : Digits digits) (fractional : ¬ size.InFull)
  (reads : Decimal.toBinary64 ⟨negative, Text.toNat digits, first - (digits.length - 1)⟩ =
    .finite negative size)

include filled fractional reads

theorem spells_positional (few : digits.length ≤ 17) (short : first < digits.length) :
    ∃ n : Numeral, n.Spells negative size ∧ n.magnitude = positional digits first := by
  have long := List.length_pos_iff.mpr filled.1
  unfold positional
  split
  · have all : (List.replicate (-first - 1).toNat 48 ++ digits).all Text.isDigit = true := by
      rw [List.all_append, Text.all_isDigit_zeros, filled.2]
      rfl
    have padded : Digits (List.replicate (-first - 1).toNat 48 ++ digits) :=
      ⟨List.append_ne_nil_of_right_ne_nil _ filled.1, all⟩
    refine ⟨⟨negative, [48], some _, none⟩,
      spells_of_parts digits_zero padded trivial (.inl (Option.some_ne_none _)) fractional ?_, ?_⟩
    · have value : Text.toNat ([48] ++ (List.replicate (-first - 1).toNat 48 ++ digits)) =
          Text.toNat digits := Text.toNat_zeros ((-first - 1).toNat + 1) digits
      rw [← reads]
      simp only [decimal, Decimal.ofParts, Option.getD_some, Option.elim_none, value,
        List.length_append, List.length_replicate]
      congr 2
      omega
    · have front : Text.ofString "0." = [48, 46] := by decide
      simp [magnitude, front]
  · rename_i above
    obtain ⟨count, rfl⟩ := Int.eq_ofNat_of_zero_le (Int.not_lt.mp above)
    dsimp only
    rw [Int.toNat_natCast]
    split
    · -- Digits alone stand for an integer, and one of so few digits would have been printed in full.
      have whole : (count : Int) - (digits.length - 1) = 0 := by omega
      rw [whole] at reads
      exact absurd (inFull_of_short filled.2 few reads) fractional
    · rename_i more
      have front : Digits (digits.take (count + 1)) :=
        ⟨by simpa using filled.1, Text.all_isDigit_take filled.2 _⟩
      have behind : Digits (digits.drop (count + 1)) :=
        ⟨by simpa using more, Text.all_isDigit_drop filled.2 _⟩
      refine ⟨⟨negative, digits.take (count + 1), some (digits.drop (count + 1)), none⟩,
        spells_of_parts front behind trivial (.inl (Option.some_ne_none _)) fractional ?_,
        by simp [magnitude]⟩
      rw [← reads]
      simp only [decimal, Decimal.ofParts, Option.getD_some, Option.elim_none,
        List.take_append_drop, List.length_drop]
      congr 2
      omega

theorem spells_scientific :
    ∃ n : Numeral, n.Spells negative size ∧ n.magnitude = scientific digits first := by
  have long := List.length_pos_iff.mpr filled.1
  have places : Digits (Text.padZeros 2 (Text.ofNat first.natAbs)) :=
    ⟨Text.padZeros_ne_nil 2 (Text.ofNat_ne_nil _),
      Text.all_isDigit_padZeros 2 (Text.all_isDigit_ofNat _)⟩
  obtain ⟨e, known, power, text⟩ := exists_exponent first places
    (by rw [Text.toNat_padZeros, Text.toNat_ofNat])
  unfold scientific
  dsimp only
  rw [← text]
  split
  · refine ⟨⟨negative, digits, none, some e⟩,
      spells_of_parts filled trivial known (.inr (Option.some_ne_none _)) fractional ?_,
      by simp [magnitude]⟩
    rw [← reads]
    simp only [decimal, Decimal.ofParts, Option.getD_none, Option.elim_some, power, List.append_nil,
      List.length_nil]
    congr 2
    omega
  · rename_i more
    have front : Digits (digits.take 1) :=
      ⟨by simpa using filled.1, Text.all_isDigit_take filled.2 _⟩
    have behind : Digits (digits.drop 1) :=
      ⟨List.ne_nil_of_length_pos (by rw [List.length_drop]; omega), Text.all_isDigit_drop filled.2 _⟩
    refine ⟨⟨negative, digits.take 1, some (digits.drop 1), some e⟩,
      spells_of_parts front behind known (.inr (Option.some_ne_none _)) fractional ?_,
      by simp [magnitude]⟩
    rw [← reads]
    simp only [decimal, Decimal.ofParts, Option.getD_some, Option.elim_some, power,
      List.take_append_drop, List.length_drop]
    congr 2
    omega

end Forms

theorem spells_shortestText (nonzero : size.units ≠ 0) (fractional : ¬ size.InFull) (negative : Bool) :
    ∃ n : Numeral, n.Spells negative size ∧ n.magnitude = shortestText size := by
  obtain ⟨precision, digits, first, found, rounded, some, few, long, reads⟩ :=
    shortest_digits nonzero
  have filled : Digits (Text.ofNat digits) := ⟨Text.ofNat_ne_nil _, Text.all_isDigit_ofNat _⟩
  have signed : Decimal.toBinary64 ⟨negative, Text.toNat (Text.ofNat digits),
      first - ((Text.ofNat digits).length - 1)⟩ = .finite negative size := by
    rw [Text.toNat_ofNat, long]
    exact Decimal.toBinary64_sign reads negative
  unfold shortestText
  simp only [found, rounded]
  split
  · rename_i within
    exact spells_positional filled fractional signed (by omega) (by omega)
  · exact spells_scientific filled fractional signed

/-- Integers below 10^21 are printed with all their digits. -/
theorem spells_inFull (nonzero : size.units ≠ 0) (whole : size.InFull) (negative : Bool) :
    ∃ n : Numeral, n.Spells negative size ∧ n.magnitude = Text.ofNat (size.units / unitsPerOne) := by
  have parts : size.units / unitsPerOne * unitsPerOne = size.units :=
    Nat.div_mul_cancel (Nat.dvd_of_mod_eq_zero whole.1)
  have some : size.units / unitsPerOne ≠ 0 := by
    intro zero
    rw [zero, Nat.zero_mul] at parts
    exact nonzero parts.symm
  refine ⟨⟨negative, Text.ofNat (size.units / unitsPerOne), none, none⟩, ⟨?_, rfl, ?_, ?_, ?_⟩, ?_⟩
  · exact legal_of_parts ⟨Text.ofNat_ne_nil _, Text.all_isDigit_ofNat _⟩ trivial trivial
  · simp only [decimal, Decimal.ofParts, Option.getD_none, Option.elim_none, List.append_nil,
      Text.toNat_ofNat, List.length_nil]
    exact (Decimal.toBinary64_whole some).trans (by rw [parts, Binary64.ofUnits_units])
  · exact iff_of_true ⟨rfl, rfl⟩ whole
  · intro _
    rw [Text.toNat_ofNat, parts]
  · simp [magnitude]

/-- A finite number is printed as a numeral that has the simplest value of the number. Both zeros are
printed without a sign. -/
theorem finite_text (negative : Bool) (size : Magnitude) : ∃ n : Numeral, n.Legal .lenient ∧
    (Binary64.finite negative size).text = n.text ∧
      (Binary64.finite negative size).Simplest n.value := by
  by_cases zero : size.units = 0
  · refine ⟨⟨false, [48], none, none⟩, legal_of_parts digits_zero trivial trivial, ?_, ?_⟩
    · simp only [Binary64.text, if_pos zero]
      rfl
    · refine .inl ⟨0, rfl, ?_⟩
      have none : (if negative then -((0 : Nat) : Int) else (0 : Nat)) = 0 := by
        cases negative <;> rfl
      have integer : (0 : Int64).toInt = 0 := by decide
      rw [Binary64.real?_finite_iff, signedUnits, zero, none, integer, Int.zero_mul]
  · obtain ⟨n, spells, written⟩ : ∃ n : Numeral, n.Spells negative size ∧ n.magnitude =
        if size.InFull then Text.ofNat (size.units / unitsPerOne) else shortestText size := by
      split
      · rename_i whole
        exact spells_inFull zero whole negative
      · rename_i fractional
        exact spells_shortestText zero fractional negative
    refine ⟨n, spells.legal, ?_, spells.simplest⟩
    simp only [Binary64.text, if_neg zero, Numeral.text, spells.sign, written]
    rfl

/-- An integer is printed as a numeral, too. -/
theorem int_text (n : Int64) : ∃ m : Numeral, m.Legal .lenient ∧ Text.ofInt n.toInt = m.text ∧
    m.value = .int n := by
  have integer : Numeral.integer ⟨decide (n.toInt < 0), Text.ofNat n.toInt.natAbs, none, none⟩ =
      n.toInt := by
    simp only [Numeral.integer, Text.toNat_ofNat, decide_eq_true_eq]
    split <;> omega
  refine ⟨⟨decide (n.toInt < 0), Text.ofNat n.toInt.natAbs, none, none⟩, ?_, ?_, ?_⟩
  · exact legal_of_parts ⟨Text.ofNat_ne_nil _, Text.all_isDigit_ofNat _⟩ trivial trivial
  · simp [Text.ofInt, Numeral.text, magnitude]
  · rw [value_of_fits, integer, Int64.ofInt_toInt]
    rw [Fits, integer]
    exact ⟨⟨rfl, rfl⟩, Int64.minValue_le_toInt n, Int64.toInt_le n⟩

end Json
end Schemata

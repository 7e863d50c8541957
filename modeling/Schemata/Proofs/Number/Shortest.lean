import Schemata.Number.Decimal
import Schemata.Proofs.Number.Rounding
import Schemata.Proofs.Text

/-! The digits that a number is written with. Rounded to any number of significant digits it has as many
digits as asked for, and it is off by half a unit of the last of them at most. With seventeen digits that
is less than its 2^54th part, so the shortest digits that read back are found among one to seventeen. -/
namespace Schemata

open Binary64 (unitsPerOne unitsPerOne_pos)

variable {units precision : Nat} {exponent : Int} {size : Magnitude}

/-- How far units lie from zero, as a rational number. -/
def ratio (units : Nat) : ℚ := units / unitsPerOne

theorem unit_pos : (0 : ℚ) < unitsPerOne := by exact_mod_cast unitsPerOne_pos

theorem ratio_pos (nonzero : units ≠ 0) : 0 < ratio units := by
  have positive : (0 : ℚ) < units := by exact_mod_cast Nat.pos_of_ne_zero nonzero
  exact div_pos positive unit_pos

theorem unitsPerOne_le_pow : unitsPerOne ≤ Nat.pow 10 400 := by
  unfold unitsPerOne
  decide +kernel

/-- A quotient lies between two powers of ten that the digits of its scaled integer part tell. -/
theorem leading_place {num den k : Nat} (nonzero : num ≠ 0) (positive : 0 < den)
    (fine : den ≤ Nat.pow 10 k) :
    (10 : ℚ) ^ (((Text.ofNat (num * Nat.pow 10 k / den)).length : Int) - (k + 1)) ≤ num / den ∧
      (num / den : ℚ) < 10 ^ (((Text.ofNat (num * Nat.pow 10 k / den)).length : Int) - k) := by
  rw [Nat.pow_eq] at *
  have scale : (0 : ℚ) < den := by exact_mod_cast positive
  have some : 0 < num * 10 ^ k / den := by
    refine Nat.div_pos (Nat.le_trans fine ?_) positive
    exact Nat.le_mul_of_pos_left _ (Nat.pos_of_ne_zero nonzero)
  have least := Text.pow_length_ofNat_le some
  have most := Text.lt_pow_length_ofNat (num * 10 ^ k / den)
  have long : 0 < (Text.ofNat (num * 10 ^ k / den)).length :=
    List.length_pos_iff.mpr (Text.ofNat_ne_nil _)
  rw [Nat.le_div_iff_mul_le positive] at least
  rw [Nat.div_lt_iff_lt_mul positive] at most
  generalize (Text.ofNat (num * 10 ^ k / den)).length = n at *
  have lower : (10 : ℚ) ^ (n - 1) * den ≤ num * 10 ^ k := by exact_mod_cast least
  have upper : (num : ℚ) * 10 ^ k < 10 ^ n * den := by exact_mod_cast most
  have down : (10 : ℚ) ^ ((n : Int) - (k + 1)) = 10 ^ (n - 1) / 10 ^ k := by
    rw [← zpow_natCast, ← zpow_natCast, ← zpow_sub₀ (by norm_num)]
    congr 1
    omega
  have up : (10 : ℚ) ^ ((n : Int) - k) = 10 ^ n / 10 ^ k := by
    rw [← zpow_natCast, ← zpow_natCast, ← zpow_sub₀ (by norm_num)]
  rw [down, up, div_le_div_iff₀ (by positivity) scale, div_lt_div_iff₀ scale (by positivity)]
  exact ⟨lower, upper⟩

theorem decimalExponent_spec (nonzero : units ≠ 0) :
    (10 : ℚ) ^ decimalExponent units ≤ ratio units ∧
      ratio units < 10 ^ (decimalExponent units + 1) := by
  have place := leading_place nonzero unitsPerOne_pos unitsPerOne_le_pow
  unfold decimalExponent ratio
  generalize (Text.ofNat _).length = n at place ⊢
  rw [show (n : Int) - 401 + 1 = n - (400 : Nat) by omega,
    show (n : Int) - 401 = n - ((400 : Nat) + 1) by omega]
  exact place

/-- The digits before a carry into one more place is seen to. -/
def roundedDigits (units : Nat) (places : Int) : Nat :=
  if 0 ≤ places then nearestEven (units * Nat.pow 10 places.toNat) unitsPerOne
  else nearestEven units (unitsPerOne * Nat.pow 10 (-places).toNat)

theorem roundedDigits_error (units : Nat) (places : Int) :
    |(roundedDigits units places : ℚ) - ratio units * 10 ^ places| ≤ 1 / 2 := by
  unfold roundedDigits
  split
  · rename_i right
    obtain ⟨n, rfl⟩ := Int.eq_ofNat_of_zero_le right
    have error := @nearestEven_error (units * 10 ^ n) _ unitsPerOne_pos
    have same : ratio units * 10 ^ (n : Int) = ((units * 10 ^ n : Nat) : ℚ) / unitsPerOne := by
      rw [ratio, zpow_natCast]
      push_cast
      ring
    rw [same]
    exact error
  · rename_i left
    obtain ⟨n, same⟩ := Int.eq_ofNat_of_zero_le (show 0 ≤ -places by omega)
    obtain rfl : places = -n := by omega
    have error := @nearestEven_error units _
      (Nat.mul_pos unitsPerOne_pos (Nat.pow_pos (n := n) (show 0 < 10 by decide)))
    have quotient : ratio units * 10 ^ (-(n : Int)) = (units : ℚ) / (unitsPerOne * 10 ^ n : Nat) := by
      rw [ratio, zpow_neg, zpow_natCast, ← div_eq_mul_inv, div_div, Nat.cast_mul, Nat.cast_pow,
        Nat.cast_ofNat]
    rw [quotient, neg_neg]
    exact error

/-- Rounded where it has `q` more places after its first one, a number has as many digits, unless they
carry into one more. -/
theorem roundedDigits_bounds {q : Nat} (least : (10 : ℚ) ^ exponent ≤ ratio units)
    (most : ratio units < 10 ^ (exponent + 1)) :
    10 ^ q ≤ roundedDigits units (q - exponent) ∧
      roundedDigits units (q - exponent) ≤ 10 ^ (q + 1) := by
  have error := abs_le.mp (roundedDigits_error units (q - exponent))
  generalize roundedDigits units (q - exponent) = r at error ⊢
  have base : (10 : ℚ) ≠ 0 := by norm_num
  have shift : (0 : ℚ) < 10 ^ ((q : Int) - exponent) := zpow_pos (by norm_num) _
  have lower : (10 : ℚ) ^ q ≤ ratio units * 10 ^ ((q : Int) - exponent) := by
    calc (10 : ℚ) ^ q = 10 ^ exponent * 10 ^ ((q : Int) - exponent) := by
          rw [← zpow_add₀ base, ← zpow_natCast]
          congr 1
          omega
      _ ≤ ratio units * 10 ^ ((q : Int) - exponent) := mul_le_mul_of_nonneg_right least shift.le
  have upper : ratio units * 10 ^ ((q : Int) - exponent) < (10 : ℚ) ^ (q + 1) := by
    calc ratio units * 10 ^ ((q : Int) - exponent)
        < 10 ^ (exponent + 1) * 10 ^ ((q : Int) - exponent) := mul_lt_mul_of_pos_right most shift
      _ = (10 : ℚ) ^ (q + 1) := by
          rw [← zpow_add₀ base, ← zpow_natCast]
          congr 1
          push_cast
          ring
  constructor
  · have below : ((10 ^ q : Nat) : ℚ) < (r + 1 : Nat) := by
      push_cast
      linarith
    exact Nat.lt_add_one_iff.mp (by exact_mod_cast below)
  · have below : (r : ℚ) < (10 ^ (q + 1) + 1 : Nat) := by
      push_cast
      linarith
    exact Nat.lt_add_one_iff.mp (by exact_mod_cast below)

theorem roundedDigits_near (units q : Nat) (exponent : Int) :
    |(roundedDigits units (q - exponent) : ℚ) * 10 ^ (exponent - q) - ratio units| ≤
      10 ^ (exponent - q) / 2 := by
  have error := roundedDigits_error units (q - exponent)
  generalize roundedDigits units (q - exponent) = r at error ⊢
  have back : (10 : ℚ) ^ (exponent - (q : Int)) = (10 ^ ((q : Int) - exponent))⁻¹ := by
    rw [← zpow_neg, neg_sub]
  have parts : (r : ℚ) * 10 ^ (exponent - (q : Int)) - ratio units =
      (r - ratio units * 10 ^ ((q : Int) - exponent)) * 10 ^ (exponent - (q : Int)) := by
    rw [back]
    field_simp
  have unit : (0 : ℚ) < 10 ^ (exponent - (q : Int)) := zpow_pos (by norm_num) _
  rw [parts, abs_mul, abs_of_pos unit, div_eq_mul_one_div, mul_comm]
  exact mul_le_mul_of_nonneg_left error unit.le

theorem significantDigits_eq (units precision : Nat) (exponent : Int) :
    significantDigits units precision exponent =
      if roundedDigits units (precision - 1 - exponent) = 10 ^ precision then
        (10 ^ (precision - 1), exponent + 1)
      else (roundedDigits units (precision - 1 - exponent), exponent) := rfl

/-- Rounded to some digits, the number has so many of them and lies half a unit of the last of them
away at most. -/
theorem significantDigits_spec {digits : Nat} {first : Int} (some : 0 < precision)
    (least : (10 : ℚ) ^ exponent ≤ ratio units) (most : ratio units < 10 ^ (exponent + 1))
    (rounded : significantDigits units precision exponent = (digits, first)) :
    10 ^ (precision - 1) ≤ digits ∧ digits < 10 ^ precision ∧
      |(digits : ℚ) * 10 ^ (first - (precision - 1)) - ratio units| ≤
        10 ^ (exponent - (precision - 1)) / 2 := by
  obtain ⟨q, rfl⟩ := Nat.exists_eq_add_one_of_ne_zero some.ne'
  have places : ((q + 1 : Nat) : Int) - 1 - exponent = q - exponent := by omega
  have last : ((q + 1 : Nat) : Int) - 1 = q := by omega
  rw [significantDigits_eq, places] at rounded
  rw [last, Nat.add_sub_cancel] at *
  obtain ⟨enough, few⟩ := roundedDigits_bounds (q := q) least most
  have near := roundedDigits_near units q exponent
  split at rounded
  · rename_i carry
    cases rounded
    refine ⟨Nat.le_refl _, Nat.pow_lt_pow_succ (by decide), ?_⟩
    have same : ((10 ^ q : Nat) : ℚ) * 10 ^ (exponent + 1 - (q : Int)) =
        roundedDigits units (q - exponent) * 10 ^ (exponent - (q : Int)) := by
      rw [carry, add_sub_right_comm, zpow_add_one₀ (by norm_num)]
      push_cast
      ring
    rwa [same]
  · rename_i kept
    cases rounded
    exact ⟨enough, Nat.lt_of_le_of_ne few kept, near⟩

section Reading

variable {digits : Nat} {power : Int}

theorem unitLimit_eq : unitLimit = 2 ^ 1024 * unitsPerOne := by
  unfold unitLimit limitExponent unitsPerOne
  decide +kernel

/-- With such an exponent every number is infinite. -/
theorem le_of_large (some : digits ≠ 0) (large : 309 ≤ power) :
    (2 : ℚ) * 2 ^ 1024 ≤ digits * 10 ^ power := by
  have one : (1 : ℚ) ≤ digits := by exact_mod_cast Nat.pos_of_ne_zero some
  have powers : (2 : ℚ) * 2 ^ 1024 ≤ 10 ^ (309 : Int) := by
    have whole : 2 * 2 ^ 1024 ≤ 10 ^ 309 := by decide +kernel
    rw [show (309 : Int) = (309 : Nat) from rfl, zpow_natCast]
    exact_mod_cast whole
  calc (2 : ℚ) * 2 ^ 1024 ≤ 10 ^ (309 : Int) := powers
    _ ≤ 10 ^ power := zpow_le_zpow_right₀ (by norm_num) large
    _ ≤ digits * 10 ^ power := le_mul_of_one_le_left (zpow_pos (by norm_num) _).le one

/-- With such an exponent every number is zero. -/
theorem lt_of_small (small : power + (digits.log2 + 1) < -324) :
    (digits : ℚ) * 10 ^ power < (2 * unitsPerOne : ℚ)⁻¹ := by
  have powers : (2 : ℚ) * unitsPerOne ≤ 10 ^ 325 := by
    have whole : 2 * unitsPerOne ≤ 10 ^ 325 := by
      unfold unitsPerOne
      decide +kernel
    exact_mod_cast whole
  have short : (digits : ℚ) < 10 ^ (digits.log2 + 1) := by
    have bits : digits < 2 ^ (digits.log2 + 1) := Nat.lt_log2_self
    exact_mod_cast Nat.lt_of_lt_of_le bits (Nat.pow_le_pow_left (by decide) _)
  calc (digits : ℚ) * 10 ^ power < 10 ^ (digits.log2 + 1) * 10 ^ power :=
        mul_lt_mul_of_pos_right short (zpow_pos (by norm_num) _)
    _ = 10 ^ (power + (digits.log2 + 1)) := by
        rw [← zpow_natCast, ← zpow_add₀ (by norm_num), add_comm]
        norm_cast
    _ ≤ 10 ^ (-325 : Int) := zpow_le_zpow_right₀ (by norm_num) (by omega)
    _ = (10 ^ 325)⁻¹ := zpow_neg ..
    _ ≤ (2 * unitsPerOne : ℚ)⁻¹ := inv_anti₀ (mul_pos two_pos unit_pos) powers

theorem ratio_lt (size : Magnitude) : ratio size.units < 2 ^ 1024 := by
  have below : (size.units : ℚ) < 2 ^ 1024 * unitsPerOne := by
    exact_mod_cast unitLimit_eq ▸ size.fits.1
  rw [ratio, div_lt_iff₀ unit_pos]
  exact below

theorem le_ratio (nonzero : units ≠ 0) : 1 / (unitsPerOne : ℚ) ≤ ratio units := by
  have least : (1 : ℚ) ≤ units := by exact_mod_cast Nat.pos_of_ne_zero nonzero
  exact div_le_div_of_nonneg_right least unit_pos.le

variable (nonzero : size.units ≠ 0)
  (close : |(digits : ℚ) * 10 ^ power - ratio size.units| * 2 ^ 54 < ratio size.units)

include nonzero close

theorem between_of_close : ratio size.units / 2 < digits * 10 ^ power ∧
    (digits : ℚ) * 10 ^ power < 2 * ratio size.units := by
  have positive := ratio_pos nonzero
  have near : |(digits : ℚ) * 10 ^ power - ratio size.units| < ratio size.units / 2 := by
    have scale : (2 : ℚ) ≤ 2 ^ 54 := by norm_num
    nlinarith [abs_nonneg ((digits : ℚ) * 10 ^ power - ratio size.units)]
  rw [abs_lt] at near
  constructor <;> linarith

theorem digits_pos_of_close : 0 < digits := by
  obtain ⟨above, _⟩ := between_of_close nonzero close
  have positive := ratio_pos nonzero
  rcases Nat.eq_zero_or_pos digits with rfl | some
  · rw [Nat.cast_zero, zero_mul] at above
    linarith
  · exact some

/-- The exponent is not one at which every number is infinite. -/
theorem power_lt_of_close : power < 309 := by
  obtain ⟨_, below⟩ := between_of_close nonzero close
  by_contra large
  have beyond := le_of_large (digits_pos_of_close nonzero close).ne' (not_lt.mp large)
  have doubled := mul_lt_mul_of_pos_left (ratio_lt size) two_pos
  exact lt_irrefl _ (beyond.trans_lt (below.trans doubled))

/-- Nor is it one at which every number is zero. -/
theorem lt_power_of_close : -325 < power + (digits.log2 + 1) := by
  obtain ⟨above, _⟩ := between_of_close nonzero close
  by_contra small
  have beneath : (digits : ℚ) * 10 ^ power < (2 * unitsPerOne : ℚ)⁻¹ := lt_of_small (by omega)
  have half : (2 * unitsPerOne : ℚ)⁻¹ ≤ ratio size.units / 2 := by
    calc (2 * unitsPerOne : ℚ)⁻¹ = 1 / unitsPerOne / 2 := by ring
      _ ≤ ratio size.units / 2 := div_le_div_of_nonneg_right (le_ratio nonzero) two_pos.le
  exact lt_irrefl _ (above.trans (beneath.trans_le half))

/-- Digits and an exponent that are off by less than the 2^54th part are read as the number. -/
theorem toBinary64_of_close (negative : Bool) :
    Decimal.toBinary64 ⟨negative, digits, power⟩ = .finite negative size := by
  have some := digits_pos_of_close nonzero close
  have finite := power_lt_of_close nonzero close
  have visible := lt_power_of_close nonzero close
  have scaled : |(digits : ℚ) * 10 ^ power * unitsPerOne - size.units| * 2 ^ 54 < size.units := by
    have whole : (size.units : ℚ) = ratio size.units * unitsPerOne := by
      rw [ratio, div_mul_cancel₀ _ unit_pos.ne']
    rw [whole, ← sub_mul, abs_mul, abs_of_pos unit_pos, mul_right_comm]
    exact mul_lt_mul_of_pos_right close unit_pos
  unfold Decimal.toBinary64
  simp only
  rw [if_neg some.ne', if_neg (by omega), if_neg (by omega)]
  split
  · rename_i right
    obtain ⟨n, rfl⟩ := Int.eq_ofNat_of_zero_le right
    apply Binary64.ofUnits_of_close nonzero Nat.one_pos
    rw [zpow_natCast] at scaled
    rw [Nat.cast_one, div_one, Nat.cast_mul, Nat.cast_mul, Nat.pow_eq, Nat.cast_pow, Nat.cast_ofNat]
    exact scaled
  · rename_i left
    obtain ⟨n, same⟩ := Int.eq_ofNat_of_zero_le (show 0 ≤ -power by omega)
    obtain rfl : power = -n := by omega
    apply Binary64.ofUnits_of_close nonzero (Nat.pow_pos (by decide))
    rw [zpow_neg, zpow_natCast] at scaled
    have quotient : (digits : ℚ) * (10 ^ n)⁻¹ * unitsPerOne = digits * unitsPerOne / 10 ^ n := by
      ring
    rw [quotient] at scaled
    rw [neg_neg, Int.toNat_natCast, Nat.cast_mul, Nat.cast_pow, Nat.cast_ofNat]
    exact scaled

end Reading

theorem readsBack_iff {digits : Nat} {first : Int}
    (rounded : significantDigits size.units precision exponent = (digits, first)) :
    readsBack size precision exponent = true ↔
      Decimal.toBinary64 ⟨false, digits, first - (precision - 1)⟩ = .finite false size := by
  simp only [readsBack, rounded, beq_iff_eq]

/-- Seventeen digits always read back. -/
theorem readsBack_seventeen (nonzero : size.units ≠ 0) :
    readsBack size 17 (decimalExponent size.units) = true := by
  obtain ⟨least, most⟩ := decimalExponent_spec nonzero
  rcases rounded : significantDigits size.units 17 (decimalExponent size.units) with ⟨digits, first⟩
  obtain ⟨_, _, error⟩ := significantDigits_spec (by decide) least most rounded
  rw [readsBack_iff rounded]
  apply toBinary64_of_close nonzero
  have unit : (10 : ℚ) ^ (decimalExponent size.units - ((17 : Nat) - 1)) =
      10 ^ decimalExponent size.units / 10 ^ 16 := by
    rw [zpow_sub₀ (by norm_num)]
    norm_num
  rw [unit] at error
  have positive := ratio_pos nonzero
  calc |(digits : ℚ) * 10 ^ (first - ((17 : Nat) - 1)) - ratio size.units| * 2 ^ 54
      ≤ 10 ^ decimalExponent size.units / 10 ^ 16 / 2 * 2 ^ 54 := by gcongr
    _ ≤ ratio size.units / 10 ^ 16 / 2 * 2 ^ 54 := by gcongr
    _ < ratio size.units := by linarith

/-- The shortest digits read back, and they are no more than seventeen. -/
theorem shortestPrecision_spec (nonzero : size.units ≠ 0) {shortest : Nat}
    (found : shortestPrecision size (decimalExponent size.units) = shortest) :
    0 < shortest ∧ shortest ≤ 17 ∧
      readsBack size shortest (decimalExponent size.units) = true := by
  unfold shortestPrecision at found
  cases searched : (List.range' 1 16).find? (readsBack size · (decimalExponent size.units)) with
  | none =>
    rw [searched] at found
    obtain rfl : 17 = shortest := found
    exact ⟨by decide, Nat.le_refl _, readsBack_seventeen nonzero⟩
  | some p =>
    rw [searched] at found
    obtain rfl : p = shortest := found
    have inside := List.mem_range'_1.mp (List.mem_of_find?_eq_some searched)
    have reads := List.find?_some searched
    exact ⟨inside.1, Nat.le_of_lt inside.2, reads⟩

/-- What the shortest text of a magnitude is made of: as many digits as it has places, and read with the
power of ten of the last of them they are the magnitude. -/
theorem shortest_digits (nonzero : size.units ≠ 0) : ∃ precision digits first,
    shortestPrecision size (decimalExponent size.units) = precision ∧
    significantDigits size.units precision (decimalExponent size.units) = (digits, first) ∧
    0 < precision ∧ precision ≤ 17 ∧ (Text.ofNat digits).length = precision ∧
    Decimal.toBinary64 ⟨false, digits, first - (precision - 1)⟩ = .finite false size := by
  generalize found : shortestPrecision size (decimalExponent size.units) = precision
  rcases rounded : significantDigits size.units precision (decimalExponent size.units) with
    ⟨digits, first⟩
  obtain ⟨some, short, reads⟩ := shortestPrecision_spec nonzero found
  obtain ⟨least, most⟩ := decimalExponent_spec nonzero
  obtain ⟨enough, few, _⟩ := significantDigits_spec some least most rounded
  refine ⟨precision, digits, first, rfl, rounded, some, short, ?_, (readsBack_iff rounded).mp reads⟩
  obtain ⟨q, rfl⟩ := Nat.exists_eq_add_one_of_ne_zero some.ne'
  exact Text.length_ofNat enough few

end Schemata

import Schemata.Proofs.Number.Nearest

/-! Arithmetic of doubles that integers are rounded to. To scale by a power of two loses nothing, and to
add a small integer to a large one that was scaled by a greater power changes nothing. Digits behind an
integer leave what it is rounded to as it is, unless it lies half way between two doubles. -/
namespace Schemata

open Binary64 (unitsPerOne unitsPerOne_pos)

variable {n d k b c : Nat}

theorem log2_mul_two_pow (some : n ≠ 0) (k : Nat) : (n * 2 ^ k).log2 = n.log2 + k := by
  rw [Nat.log2_eq_iff (Nat.mul_ne_zero some (Nat.two_pow_pos k).ne'), Nat.add_right_comm, Nat.pow_add,
    Nat.pow_add]
  exact ⟨Nat.mul_le_mul_right _ (Nat.log2_self_le some),
    Nat.mul_lt_mul_of_pos_right Nat.lt_log2_self (Nat.two_pow_pos k)⟩

theorem spacing_mul_two_pow (large : 2 ^ 52 ≤ n) (k : Nat) : spacing (n * 2 ^ k) = spacing n * 2 ^ k := by
  have bits : 52 ≤ n.log2 := (Nat.le_log2 (by omega)).mpr large
  rw [spacing, spacing, log2_mul_two_pow (by omega), ← Nat.pow_add]
  congr 1
  omega

/-- Half way from a representable integer to the next one, the lower one of which is even. -/
def TiesDown (n : Nat) : Prop := 2 * (n % spacing n) = spacing n ∧ n / spacing n % 2 = 0

instance (n : Nat) : Decidable (TiesDown n) := inferInstanceAs (Decidable (_ ∧ _))

theorem nearestEven_mul_right (some : 0 < c) : nearestEven (n * c) (b * c) = nearestEven n b := by
  have scaled : 2 * (n % b * c) = 2 * (n % b) * c := (Nat.mul_assoc ..).symm
  unfold nearestEven
  dsimp only
  simp only [Nat.mul_div_mul_right _ _ some, Nat.mul_mod_mul_right, scaled, Nat.mul_lt_mul_right some,
    Nat.mul_left_inj some.ne']

/-- Less than one behind a numerator is seen only where the quotient by an even number is half way. -/
theorem nearestEven_mul_add (even : 2 ∣ b) (some : 0 < b) (small : d < c) :
    nearestEven (n * c + d) (b * c) =
      nearestEven n b + if (2 * (n % b) = b ∧ n / b % 2 = 0) ∧ d ≠ 0 then 1 else 0 := by
  have inner : (n * c + d) / c = n := by
    rw [Nat.mul_comm, Nat.mul_add_div (by omega), Nat.div_eq_of_lt small, Nat.add_zero]
  have quotient : (n * c + d) / (b * c) = n / b := by
    rw [Nat.mul_comm b, ← Nat.div_div_eq_div_mul, inner]
  have rest : (n * c + d) % (b * c) = n % b * c + d := by
    rw [Nat.mul_comm b, Nat.mod_mul, inner, Nat.mul_add_mod_self_right, Nat.mod_eq_of_lt small]
    ring
  obtain ⟨a, rfl⟩ := even
  unfold nearestEven
  dsimp only
  rw [quotient, rest, Nat.mul_assoc]
  rcases Nat.lt_trichotomy (n % (2 * a)) a with less | same | more
  · have below : n % (2 * a) * c + c ≤ a * c := by
      rw [← Nat.succ_mul]
      exact Nat.mul_le_mul_right c less
    rw [if_pos (.inl (by omega)), if_pos (.inl (by omega)), if_neg (by omega), Nat.add_zero]
  · rw [same]
    split_ifs <;> omega
  · have above : a * c + c ≤ n % (2 * a) * c := by
      rw [← Nat.succ_mul]
      exact Nat.mul_le_mul_right c more
    rw [if_neg (by omega), if_neg (by omega), if_neg (by omega), Nat.add_zero]

section Rounding

theorem nearestUnits_one (n : Nat) : nearestUnits n 1 = nearestEven n (spacing n) * spacing n := by
  have parts : nearestUnits n 1 = nearestEven n (1 * spacing (n / 1)) * spacing (n / 1) := rfl
  rwa [Nat.div_one, Nat.one_mul] at parts

theorem two_dvd_spacing (large : 2 ^ 53 ≤ n) : 2 ∣ spacing n := by
  have bits : 53 ≤ n.log2 := (Nat.le_log2 (by omega)).mpr large
  exact dvd_pow_self 2 (by omega)

/-- Integers below 2^53 are exact, and so they are scaled by a power of two. -/
theorem nearestUnits_small (small : n < 2 ^ 53) (k : Nat) : nearestUnits (n * 2 ^ k) 1 = n * 2 ^ k := by
  have grid : spacing (n * 2 ^ k) ∣ n * 2 ^ k := by
    by_cases zero : n = 0
    · rw [zero, Nat.zero_mul]
      exact dvd_zero _
    · have bits : n.log2 < 53 := (Nat.log2_lt zero).mpr small
      refine Nat.dvd_mul_left_of_dvd ?_ n
      rw [spacing, log2_mul_two_pow zero]
      exact Nat.pow_dvd_pow 2 (by omega)
  have exact := nearestUnits_mul Nat.one_pos grid
  rwa [Nat.mul_one] at exact

theorem nearestUnits_of_lt (small : n < 2 ^ 53) : nearestUnits n 1 = n := by
  have exact := nearestUnits_small small 0
  rwa [Nat.pow_zero, Nat.mul_one] at exact

/-- What stands behind a large integer is seen only if that lies half way between two representable ones. -/
theorem nearestUnits_mul_add (large : 2 ^ 53 ≤ n) (small : d < 2 ^ k) :
    nearestUnits (n * 2 ^ k + d) 1 =
      nearestUnits (n * 2 ^ k) 1 + if TiesDown n ∧ d ≠ 0 then spacing (n * 2 ^ k) else 0 := by
  have scaled := spacing_mul_two_pow (show 2 ^ 52 ≤ n by omega) k
  have same : spacing (n * 2 ^ k + d) = spacing n * 2 ^ k := by
    have some : n * 2 ^ k ≠ 0 := Nat.mul_ne_zero (by omega) (Nat.two_pow_pos k).ne'
    have top : n * 2 ^ k + 2 ^ k ≤ 2 ^ ((n * 2 ^ k).log2 + 1) := by
      rw [log2_mul_two_pow (by omega), Nat.add_right_comm, Nat.pow_add, ← Nat.succ_mul]
      exact Nat.mul_le_mul_right _ Nat.lt_log2_self
    have bits : (n * 2 ^ k + d).log2 = (n * 2 ^ k).log2 := by
      rw [Nat.log2_eq_iff (by omega)]
      exact ⟨Nat.le_add_right_of_le (Nat.log2_self_le some), by omega⟩
    rw [← scaled, spacing, bits, ← spacing]
  have even := two_dvd_spacing large
  rw [nearestUnits_one, nearestUnits_one, same, scaled, nearestEven_mul_right (Nat.two_pow_pos k),
    nearestEven_mul_add even (spacing_pos n) small, Nat.add_mul]
  unfold TiesDown
  split_ifs <;> simp

/-- Rounding and scaling by a power of two may change places. -/
theorem nearestUnits_mul_two_pow (n k : Nat) : nearestUnits (n * 2 ^ k) 1 = nearestUnits n 1 * 2 ^ k := by
  by_cases small : n < 2 ^ 53
  · rw [nearestUnits_small small, nearestUnits_of_lt small]
  · have large : 2 ^ 53 ≤ n := Nat.not_lt.mp small
    rw [nearestUnits_one, nearestUnits_one, spacing_mul_two_pow (by omega),
      nearestEven_mul_right (Nat.two_pow_pos k), Nat.mul_assoc]

end Rounding

namespace Binary64

theorem ofUnits_congr {negative : Bool} {num den num' den' : Nat}
    (same : nearestUnits num den = nearestUnits num' den') :
    ofUnits negative num den = ofUnits negative num' den' := by
  unfold ofUnits
  simp only [same]

theorem ofInt_natCast (n : Nat) : ofInt n = ofUnits false (n * unitsPerOne) 1 := by
  rw [ofInt, decide_eq_false (Int.not_lt.mpr (Int.natCast_nonneg n)), Int.natAbs_natCast]

theorem nearestUnits_mul_unitsPerOne (n : Nat) :
    nearestUnits (n * unitsPerOne) 1 = nearestUnits n 1 * unitsPerOne := by
  unfold unitsPerOne
  generalize 1074 = e
  exact nearestUnits_mul_two_pow n e

/-- Integers that are rounded to one count are one double. -/
theorem ofInt_congr {m n : Nat} (same : nearestUnits m 1 = nearestUnits n 1) : ofInt m = ofInt n := by
  rw [ofInt_natCast, ofInt_natCast]
  refine ofUnits_congr ?_
  rw [nearestUnits_mul_unitsPerOne, nearestUnits_mul_unitsPerOne, same]

/-- What an integer becomes: as many units as it is rounded to, or infinity if they are too many. -/
theorem ofInt_cases (n : Nat) :
    (∃ size, ofInt n = finite false size ∧ size.units = nearestUnits n 1 * unitsPerOne) ∨
    (ofInt n = infinity false ∧ unitLimit ≤ nearestUnits n 1 * unitsPerOne) := by
  rw [ofInt_natCast, ← nearestUnits_mul_unitsPerOne, ofUnits]
  split
  · exact .inl ⟨_, rfl, rfl⟩
  · rename_i large
    exact .inr ⟨rfl, Nat.not_lt.mp large⟩

theorem ofInt_eq_infinity (large : unitLimit ≤ nearestUnits n 1 * unitsPerOne) :
    ofInt n = infinity false := by
  rcases ofInt_cases n with ⟨size, _, units⟩ | ⟨limit, _⟩
  · exact absurd (units ▸ size.fits.1) (Nat.not_lt.mpr large)
  · exact limit

theorem exists_ofInt_of_lt (small : n < 2 ^ 53) :
    ∃ size, ofInt n = finite false size ∧ size.units = n * unitsPerOne := by
  have inside := mul_unitsPerOne_lt_unitLimit small.le (by decide)
  rcases ofInt_cases n with ⟨size, exact, units⟩ | ⟨_, large⟩
  · exact ⟨size, exact, by rw [units, nearestUnits_of_lt small]⟩
  · rw [nearestUnits_of_lt small] at large
    exact absurd inside (Nat.not_lt.mpr large)

/-- To scale an integer by a power of two is exact. -/
theorem ofInt_mul_two_pow (n : Nat) (short : k < 53) :
    (ofInt n).mul (ofInt ((2 ^ k : Nat) : Int)) = ofInt ((n * 2 ^ k : Nat) : Int) := by
  have power : 2 ^ k < 2 ^ 53 := Nat.pow_lt_pow_right (by decide) short
  obtain ⟨scale, exact, units⟩ := exists_ofInt_of_lt power
  have positive : 0 < 2 ^ k * unitsPerOne := Nat.mul_pos (Nat.two_pow_pos k) unitsPerOne_pos
  have scaled : nearestUnits (n * 2 ^ k * unitsPerOne) 1 =
      nearestUnits n 1 * unitsPerOne * 2 ^ k := by
    rw [nearestUnits_mul_unitsPerOne, nearestUnits_mul_two_pow, Nat.mul_right_comm]
  rcases ofInt_cases n with ⟨size, rounded, units'⟩ | ⟨rounded, large⟩
  · have grid := spacing_dvd_self_nearestUnits Nat.one_pos (n * 2 ^ k * unitsPerOne)
    rw [scaled, ← units'] at grid
    rw [rounded, exact, mul, ofInt_natCast]
    refine ofUnits_congr ?_
    rw [scaled, ← units', units, ← Nat.mul_assoc, nearestUnits_mul unitsPerOne_pos grid]
  · have beyond : unitLimit ≤ nearestUnits (n * 2 ^ k) 1 * unitsPerOne := by
      rw [← nearestUnits_mul_unitsPerOne, scaled]
      exact large.trans (Nat.le_mul_of_pos_right _ (Nat.two_pow_pos k))
    rw [rounded, exact, ofInt_eq_infinity beyond, mul, units, if_neg positive.ne']
    rfl

/-- A small integer is added to what a number is rounded to. -/
theorem ofInt_add (n : Nat) (small : d < 2 ^ 53) :
    (ofInt n).add (ofInt d) = ofInt ((nearestUnits n 1 + d : Nat) : Int) := by
  obtain ⟨more, exact, units⟩ := exists_ofInt_of_lt small
  rcases ofInt_cases n with ⟨size, rounded, units'⟩ | ⟨rounded, large⟩
  · have sum : signedUnits false size + signedUnits false more =
        ((nearestUnits n 1 + d) * unitsPerOne : Nat) := by
      rw [signedUnits, signedUnits, units, units', Nat.add_mul, Nat.cast_add]
      rfl
    rw [rounded, exact, add, sum, ofInt_natCast, Int.natAbs_natCast,
      decide_eq_false (Int.not_lt.mpr (Int.natCast_nonneg _))]
    split
    · rename_i none
      have none : (nearestUnits n 1 + d) * unitsPerOne = 0 := by exact_mod_cast none
      rw [none]
      exact (ofUnits_units false Magnitude.zero).symm
    · rfl
  · have beyond : unitLimit ≤ nearestUnits (nearestUnits n 1 + d) 1 * unitsPerOne := by
      have above : nearestUnits n 1 ≤ nearestUnits (nearestUnits n 1 + d) 1 :=
        le_nearestUnits Nat.one_pos (spacing_dvd_self_nearestUnits Nat.one_pos n) (by omega)
      exact large.trans (Nat.mul_le_mul_right _ above)
    rw [rounded, exact, ofInt_eq_infinity beyond]
    rfl

/-- A digit behind what is rounded to an integer of 53 bits or more is lost. -/
theorem nearestUnits_add_digit (large : 2 ^ 53 ≤ n) (small : d < 2 ^ k) :
    nearestUnits (nearestUnits (n * 2 ^ k) 1 + d) 1 = nearestUnits (n * 2 ^ k) 1 := by
  have grid := spacing_dvd_self_nearestUnits Nat.one_pos n
  have reached : 2 ^ 53 ≤ nearestUnits n 1 :=
    le_nearestUnits Nat.one_pos (spacing_dvd_self_two_pow 53) (by rwa [Nat.mul_one])
  have exact : ¬ TiesDown (nearestUnits n 1) := by
    intro tie
    have half := tie.1
    rw [Nat.mod_eq_zero_of_dvd grid] at half
    have := spacing_pos (nearestUnits n 1)
    omega
  have twice : nearestUnits (nearestUnits n 1) 1 = nearestUnits n 1 := by
    have fixed := nearestUnits_mul Nat.one_pos grid
    rwa [Nat.mul_one] at fixed
  rw [nearestUnits_mul_two_pow, nearestUnits_mul_add reached small, if_neg fun both => exact both.1,
    Nat.add_zero, nearestUnits_mul_two_pow, twice]

/-- One more digit of base 2^k behind the double of an integer. -/
theorem ofInt_digit (n : Nat) (short : k < 53) (small : d < 2 ^ k) :
    ((ofInt n).mul (ofInt ((2 ^ k : Nat) : Int))).add (ofInt d) =
      ofInt ((n * 2 ^ k + if n < 2 ^ 53 then d else 0 : Nat) : Int) := by
  have digit : d < 2 ^ 53 := small.trans (Nat.pow_lt_pow_right (by decide) short)
  rw [ofInt_mul_two_pow n short, ofInt_add _ digit]
  split
  · rename_i exact
    rw [nearestUnits_small exact]
  · rename_i large
    rw [Nat.add_zero]
    exact ofInt_congr (nearestUnits_add_digit (Nat.not_lt.mp large) small)

theorem ofInt_le_maxSafeInteger_iff (n : Int) : (ofInt n).le maxSafeInteger = true ↔ n < 2 ^ 53 := by
  obtain ⟨q, rounded⟩ := exists_place?_ofInt n
  have greatest := place?_ofInt (n := 9007199254740991) (by decide)
  have unit : (0 : Int) < unitsPerOne := by exact_mod_cast unitsPerOne_pos
  obtain ⟨_, inside⟩ := place?_ofInt_order (m := 9007199254740991) (by decide) rounded
  obtain ⟨outside, _⟩ := place?_ofInt_order (m := 9007199254740992) (by decide) rounded
  rw [maxSafeInteger, le_eq_true_iff rounded greatest]
  constructor
  · intro most
    by_contra above
    have := outside (by omega)
    linarith
  · intro small
    exact inside (by omega)

theorem toInt64_ofInt {n : Int} (small : n.natAbs ≤ 2 ^ 53) : (ofInt n).toInt64.toInt = n := by
  obtain ⟨negative, size, exact, units⟩ := exists_ofInt_eq small
  have unit : (unitsPerOne : Int) ≠ 0 := by exact_mod_cast unitsPerOne_pos.ne'
  have low : Int64.minValue.toInt ≤ n := by
    rw [Int64.toInt_minValue]
    omega
  have high : n ≤ Int64.maxValue.toInt := by
    rw [Int64.toInt_maxValue]
    omega
  rw [exact, toInt64, units, Int.mul_tdiv_cancel n unit, if_pos ⟨low, high⟩]
  exact Int64.toInt_ofInt_of_le (by omega) (by omega)

/-- The double of one integer is nearest to another one if it is the double of that one, too. -/
theorem nearest_ofInt_iff (m n : Nat) : (ofInt m).Nearest n ↔ ofInt m = ofInt n := by
  constructor
  · intro near
    obtain ⟨q, rounded⟩ := exists_place?_ofInt m
    have rounded' := near.place?_eq (nearest_ofInt n) ▸ rounded
    by_cases zero : q = 0
    · have signs := place?_ofInt_sign rounded
      have signs' := place?_ofInt_sign rounded'
      obtain rfl : m = n := by omega
      rfl
    · exact eq_of_place?_eq rounded rounded' zero
  · intro same
    rw [same]
    exact_mod_cast nearest_ofInt n

/-- To leave out what stands behind a large integer changes its double only where that integer lies half
way between two doubles. -/
theorem ofInt_mul_eq_iff (large : 2 ^ 53 ≤ n) (small : d < 2 ^ k) :
    ofInt ((n * 2 ^ k : Nat) : Int) = ofInt ((n * 2 ^ k + d : Nat) : Int) ↔
      ¬ (TiesDown n ∧ d ≠ 0 ∧ (ofInt ((n * 2 ^ k : Nat) : Int)).isFinite = true) := by
  have seen := nearestUnits_mul_add large small
  by_cases tie : TiesDown n ∧ d ≠ 0
  · rw [if_pos tie] at seen
    have spaced := spacing_pos (n * 2 ^ k)
    rcases ofInt_cases (n * 2 ^ k) with ⟨size, rounded, units⟩ | ⟨rounded, beyond⟩
    · refine iff_of_false (fun same => ?_) (not_not.mpr ⟨tie.1, tie.2, by rw [rounded]; rfl⟩)
      rcases ofInt_cases (n * 2 ^ k + d) with ⟨size', rounded', units'⟩ | ⟨rounded', _⟩
      · rw [rounded, rounded', finite.injEq] at same
        rw [← same.2, units] at units'
        have := Nat.eq_of_mul_eq_mul_right unitsPerOne_pos units'
        omega
      · cases rounded.symm.trans (same.trans rounded')
    · refine iff_of_true ?_ (by rw [rounded]; rintro ⟨_, _, ⟨⟩⟩)
      have beyond' : unitLimit ≤ nearestUnits (n * 2 ^ k + d) 1 * unitsPerOne := by
        refine beyond.trans (Nat.mul_le_mul_right _ ?_)
        omega
      rw [rounded, ofInt_eq_infinity beyond']
  · rw [if_neg tie, Nat.add_zero] at seen
    exact iff_of_true (ofInt_congr seen.symm) fun both => tie ⟨both.1, both.2.1⟩

end Binary64

end Schemata

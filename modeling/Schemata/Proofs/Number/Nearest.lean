import Schemata.Proofs.Number.Reals
import Schemata.Proofs.Number.Shortest

/-! The double nearest to a number. Of all doubles none is nearer, and where two are as near, the even one
is taken; the infinities stand where the format would go on, at 2^1024. So at most one place is nearest.
Rounding a quotient, an integer or a decimal number finds it, for numbers of every size. -/
namespace Schemata

open Binary64 (unitsPerOne unitsPerOne_pos)

variable {num den u v : Nat} {q : ℚ}

/-- The places of numbers that are not negative: the representable counts of units, and their limit. -/
def IsCount (u : Nat) : Prop := spacing u ∣ u ∧ u ≤ unitLimit

/-- No count is nearer to `q` units, and only an even one is as near as another. -/
structure NearestCount (q : ℚ) (u : Nat) : Prop where
  closest : ∀ v, IsCount v → |(u : ℚ) - q| ≤ |(v : ℚ) - q|
  even : ∀ v, IsCount v → v ≠ u → |(u : ℚ) - q| = |(v : ℚ) - q| → 2 * spacing u ∣ u

theorem nearestCount_of_lt (strict : ∀ v, IsCount v → v ≠ u → |(u : ℚ) - q| < |(v : ℚ) - q|) :
    NearestCount q u where
  closest v count := by
    rcases eq_or_ne v u with rfl | different
    · exact le_rfl
    · exact (strict v count different).le
  even v count different same := absurd same (strict v count different).ne

/-- No nearest count is as near as the place across zero, for zero lies between. -/
theorem NearestCount.eq_zero_of_across (near : NearestCount q u) (nonneg : 0 ≤ q)
    (tie : |(u : ℚ) - q| = |-(u : ℚ) - q|) : u = 0 := by
  have size : (0 : ℚ) ≤ u := Nat.cast_nonneg u
  have between := near.closest 0 ⟨dvd_zero _, Nat.zero_le _⟩
  rw [tie, abs_of_nonpos (by linarith), Nat.cast_zero, zero_sub, abs_neg, abs_of_nonneg nonneg] at between
  have none : (u : ℚ) = 0 := le_antisymm (by linarith) size
  exact Nat.cast_eq_zero.mp none

/-- Less than half a unit is nearest to none at all. -/
theorem nearestCount_zero (nonneg : 0 ≤ q) (small : q < 1 / 2) : NearestCount q 0 := by
  refine nearestCount_of_lt fun v _ some => ?_
  have one : (1 : ℚ) ≤ v := by exact_mod_cast Nat.pos_of_ne_zero some
  rw [Nat.cast_zero, zero_sub, abs_neg, abs_of_nonneg nonneg, abs_of_nonneg (by linarith)]
  linarith

/-- Beyond the format, the limit is nearest. -/
theorem nearestCount_unitLimit (large : unitLimit ≤ q) : NearestCount q unitLimit := by
  refine nearestCount_of_lt fun v count different => ?_
  have less : (v : ℚ) < unitLimit := by exact_mod_cast Nat.lt_of_le_of_ne count.2 different
  rw [abs_of_nonpos (by linarith), abs_of_nonpos (by linarith)]
  linarith

theorem two_mul_spacing_dvd_two_pow (k : Nat) : 2 * spacing (2 ^ (k + 1)) ∣ 2 ^ (k + 1) := by
  have bits : (2 ^ (k + 1)).log2 = k + 1 := Nat.log2_two_pow
  rw [spacing, bits, ← Nat.pow_succ']
  exact Nat.pow_dvd_pow 2 (by omega)

section Quotient

theorem spacing_dvd_nearestUnits (num den : Nat) : spacing (num / den) ∣ nearestUnits num den :=
  Nat.dvd_mul_left _ _

variable (positive : 0 < den)

include positive

/-- The error of rounding, as that of rounding a multiple of the spacing. -/
theorem nearestUnits_sub : (nearestUnits num den : ℚ) - num / den =
    (nearestEven num (den * spacing (num / den)) - num / (den * spacing (num / den) : Nat)) *
      spacing (num / den) := by
  have scale : (den : ℚ) ≠ 0 := by exact_mod_cast positive.ne'
  have spaced : (spacing (num / den) : ℚ) ≠ 0 := by exact_mod_cast (spacing_pos _).ne'
  have parts : nearestUnits num den =
      nearestEven num (den * spacing (num / den)) * spacing (num / den) := rfl
  rw [parts, Nat.cast_mul, Nat.cast_mul]
  field_simp

theorem nearestUnits_error :
    |(nearestUnits num den : ℚ) - num / den| ≤ spacing (num / den) / 2 := by
  have error := @nearestEven_error num _ (Nat.mul_pos positive (spacing_pos (num / den)))
  have spaced : (0 : ℚ) < spacing (num / den) := by exact_mod_cast spacing_pos (num / den)
  rw [nearestUnits_sub positive, abs_mul, abs_of_pos spaced]
  linarith [mul_le_mul_of_nonneg_right error spaced.le]

/-- A quotient is rounded to more bits only where it is carried to a power of two. -/
theorem nearestUnits_bits (num : Nat) : (nearestUnits num den).log2 ≤ (num / den).log2 ∨
    nearestUnits num den = 2 ^ ((num / den).log2 + 1) := by
  refine or_iff_not_imp_left.mpr fun bits => ?_
  have top : num ≤ 2 ^ ((num / den).log2 + 1) * den :=
    (Nat.lt_mul_of_div_lt Nat.lt_log2_self positive).le
  have some : nearestUnits num den ≠ 0 := by
    intro zero
    rw [zero] at bits
    exact bits (Nat.zero_le _)
  have reached : 2 ^ ((num / den).log2 + 1) ≤ nearestUnits num den :=
    (Nat.le_log2 some).mp (Nat.not_le.mp bits)
  exact Nat.le_antisymm (nearestUnits_le positive (spacing_dvd_self_two_pow _) top) reached

/-- What a quotient is rounded to is representable. -/
theorem spacing_dvd_self_nearestUnits (num : Nat) :
    spacing (nearestUnits num den) ∣ nearestUnits num den := by
  rcases nearestUnits_bits positive num with bits | power
  · exact (spacing_dvd_spacing bits).trans (spacing_dvd_nearestUnits num den)
  · rw [power]
    exact spacing_dvd_self_two_pow _

/-- A quotient half way between multiples of the spacing is rounded to an even one. -/
theorem nearestUnits_even
    (half : |(nearestUnits num den : ℚ) - num / den| = spacing (num / den) / 2) :
    2 * spacing (nearestUnits num den) ∣ nearestUnits num den := by
  rcases nearestUnits_bits positive num with bits | power
  · have spaced : (0 : ℚ) < spacing (num / den) := by exact_mod_cast spacing_pos (num / den)
    have tie : |(nearestEven num (den * spacing (num / den)) : ℚ) -
        num / (den * spacing (num / den) : Nat)| = 1 / 2 := by
      rw [nearestUnits_sub positive, abs_mul, abs_of_pos spaced] at half
      exact mul_right_cancel₀ spaced.ne' (by linarith)
    have doubled : 2 * spacing (num / den) ∣ nearestUnits num den :=
      Nat.mul_dvd_mul_right (nearestEven_even (Nat.mul_pos positive (spacing_pos _)) tie) _
    exact (Nat.mul_dvd_mul_left 2 (spacing_dvd_spacing bits)).trans doubled
  · rw [power]
    exact two_mul_spacing_dvd_two_pow _

/-- A multiple of the spacing that a quotient is not rounded to is off by half a spacing at least. -/
theorem half_spacing_le (multiple : spacing (num / den) ∣ u) (different : u ≠ nearestUnits num den) :
    spacing (num / den) / 2 ≤ |(u : ℚ) - num / den| := by
  have error := abs_le.mp (@nearestUnits_error num _ positive)
  have rounded := spacing_dvd_nearestUnits num den
  rcases Nat.lt_or_gt_of_ne different with less | more
  · have apart : (u : ℚ) + spacing (num / den) ≤ nearestUnits num den := by
      exact_mod_cast add_spacing_le multiple rounded less
    rw [le_abs]
    right
    linarith
  · have apart : (nearestUnits num den : ℚ) + spacing (num / den) ≤ u := by
      exact_mod_cast add_spacing_le rounded multiple more
    rw [le_abs]
    left
    linarith

/-- The representable counts that are no multiples of the spacing lie below a power of two that the
quotient reaches. -/
theorem nearestUnits_closer (grid : spacing u ∣ u) (fine : ¬ spacing (num / den) ∣ u) :
    |(nearestUnits num den : ℚ) - num / den| < |(u : ℚ) - num / den| := by
  have shorter : u.log2 < (num / den).log2 := by
    by_contra longer
    exact fine ((spacing_dvd_spacing (Nat.not_lt.mp longer)).trans grid)
  have some : num / den ≠ 0 := by
    intro zero
    rw [zero] at shorter
    exact Nat.not_lt_zero _ shorter
  have below : u < 2 ^ (num / den).log2 :=
    Nat.lt_of_lt_of_le Nat.lt_log2_self (Nat.pow_le_pow_right (by decide) shorter)
  have power : |(nearestUnits num den : ℚ) - num / den| ≤
      |((2 ^ (num / den).log2 : Nat) : ℚ) - num / den| := by
    by_cases same : 2 ^ (num / den).log2 = nearestUnits num den
    · rw [same]
    · exact (nearestUnits_error positive).trans
        (half_spacing_le positive (spacing_dvd_two_pow (Nat.le_refl _)) same)
  have reached : ((2 ^ (num / den).log2 : Nat) : ℚ) ≤ num / den := by
    have floor : ((num / den : Nat) : ℚ) ≤ num / den := Nat.cast_div_le
    have low : ((2 ^ (num / den).log2 : Nat) : ℚ) ≤ (num / den : Nat) := by
      exact_mod_cast Nat.log2_self_le some
    exact low.trans floor
  have less : (u : ℚ) < (2 ^ (num / den).log2 : Nat) := by exact_mod_cast below
  refine power.trans_lt ?_
  rw [abs_of_nonpos (by linarith), abs_of_nonpos (by linarith)]
  linarith

/-- What a quotient is rounded to, within the format, is nearest to it. -/
theorem nearestCount_roundedUnits : NearestCount (num / den) (Binary64.roundedUnits num den) := by
  unfold Binary64.roundedUnits
  by_cases inside : nearestUnits num den ≤ unitLimit
  · rw [Nat.min_eq_left inside]
    constructor
    · intro v count
      by_cases same : v = nearestUnits num den
      · rw [same]
      · by_cases multiple : spacing (num / den) ∣ v
        · exact (nearestUnits_error positive).trans (half_spacing_le positive multiple same)
        · exact (nearestUnits_closer positive count.1 multiple).le
    · intro v count different tie
      by_cases multiple : spacing (num / den) ∣ v
      · have error := @nearestUnits_error num _ positive
        have far := half_spacing_le positive multiple different
        exact nearestUnits_even positive (le_antisymm error (tie ▸ far))
      · exact absurd tie (nearestUnits_closer positive count.1 multiple).ne
  · rw [Nat.min_eq_right (Nat.le_of_not_le inside)]
    refine nearestCount_unitLimit ?_
    by_contra less
    have under : num ≤ unitLimit * den := by
      rw [not_le, div_lt_iff₀ (by exact_mod_cast positive)] at less
      exact_mod_cast less.le
    exact inside (nearestUnits_le positive (spacing_dvd_self_two_pow _) under)

end Quotient

namespace Binary64

variable {x y : Binary64} {p r : Int} {negative : Bool}

/-- How far a place lies from a number, in units. -/
def gap (p : Int) (q : ℚ) : ℚ := |p - q * unitsPerOne|

/-- The double nearest to a number: no other one is nearer, and if another is as near, this one is even. -/
def Nearest (x : Binary64) (q : ℚ) : Prop := ∃ p, x.place? = some p ∧
  ∀ (y : Binary64) (r : Int), y.place? = some r → r ≠ p →
    gap p q ≤ gap r q ∧ (gap p q = gap r q → 2 * spacing p.natAbs ∣ p.natAbs)

theorem Nearest.ne_nan {q : ℚ} (near : x.Nearest q) : x ≠ nan := by
  rintro rfl
  obtain ⟨p, placed, _⟩ := near
  cases placed

theorem isCount_natAbs (placed : x.place? = some p) : IsCount p.natAbs := by
  obtain ⟨u, grid, small, signed⟩ := exists_count placed
  have same : p.natAbs = u := by omega
  rw [same]
  exact ⟨grid, small⟩

theorem exists_place?_of_count (count : IsCount u) (negative : Bool) :
    ∃ x : Binary64, x.place? = some (if negative then -(u : Int) else u) := by
  rcases Nat.lt_or_eq_of_le count.2 with small | rfl
  · exact ⟨.finite negative ⟨u, small, count.1⟩, rfl⟩
  · exact ⟨.infinity negative, rfl⟩

/-- One with a sign. -/
def unitSign (negative : Bool) : ℚ := if negative then -1 else 1

theorem gap_unitSign (r : Int) (negative : Bool) (q : ℚ) :
    gap r (unitSign negative * (q / unitsPerOne)) = |unitSign negative * r - q| := by
  rw [gap, mul_assoc, div_mul_cancel₀ _ unit_pos.ne']
  cases negative with
  | false => simp only [unitSign, Bool.false_eq_true, if_false, one_mul]
  | true =>
    rw [← abs_neg]
    congr 1
    simp only [unitSign, if_true]
    ring

theorem abs_natAbs_sub_le (nonneg : 0 ≤ q) (r : Int) (negative : Bool) :
    |(r.natAbs : ℚ) - q| ≤ |unitSign negative * r - q| := by
  have size : (r.natAbs : ℚ) = |unitSign negative * r| := by
    rw [Nat.cast_natAbs, Int.cast_abs, abs_mul]
    cases negative <;> simp [unitSign]
  have parts := abs_abs_sub_abs_le (unitSign negative * r) q
  rwa [abs_of_nonneg nonneg, ← size] at parts

/-- The nearest count of units, with the sign put back. -/
theorem nearest_of_count (nonneg : 0 ≤ q) (near : NearestCount q u)
    (placed : x.place? = some (if negative then -(u : Int) else u)) :
    x.Nearest (unitSign negative * (q / unitsPerOne)) := by
  refine ⟨_, placed, fun y r placed' different => ?_⟩
  have count := isCount_natAbs placed'
  have size : (if negative then -(u : Int) else u).natAbs = u := by cases negative <;> simp
  have turned : unitSign negative * ((if negative then -(u : Int) else u : Int) : ℚ) = u := by
    cases negative <;> simp [unitSign]
  rw [gap_unitSign, gap_unitSign, turned, size]
  have back := abs_natAbs_sub_le nonneg r negative
  refine ⟨(near.closest _ count).trans back, fun tie => ?_⟩
  by_cases same : r.natAbs = u
  · -- Of that size there is only the place across zero.
    have across : unitSign negative * (r : ℚ) = -(u : ℚ) := by
      have opposite : r = -(if negative then -(u : Int) else u) := by
        cases negative with
        | false => simp at different ⊢; omega
        | true => simp at different ⊢; omega
      rw [opposite, Int.cast_neg, mul_neg, turned]
    rw [near.eq_zero_of_across nonneg (across ▸ tie)]
    exact dvd_zero _
  · exact near.even _ count same (le_antisymm (near.closest _ count) (tie ▸ back))

theorem nearest_ofUnits (negative : Bool) (positive : 0 < den) :
    (ofUnits negative num den).Nearest (unitSign negative * (num / den / unitsPerOne)) :=
  nearest_of_count (by positivity) (nearestCount_roundedUnits positive) (place?_ofUnits ..)

/-- An integer becomes the double nearest to it. -/
theorem nearest_ofInt (n : Int) : (ofInt n).Nearest n := by
  have near := @nearest_ofUnits (n.natAbs * unitsPerOne) _ (n < 0) Nat.one_pos
  have size : unitSign (n < 0) * (n.natAbs : ℚ) = n := by
    rw [Nat.cast_natAbs, Int.cast_abs]
    by_cases negative : n < 0
    · rw [decide_eq_true negative, abs_of_neg (by exact_mod_cast negative)]
      simp [unitSign]
    · rw [decide_eq_false negative, abs_of_nonneg (by exact_mod_cast Int.not_lt.mp negative)]
      simp [unitSign]
  rwa [Nat.cast_mul, Nat.cast_one, div_one, mul_div_cancel_right₀ _ unit_pos.ne', size] at near

/-- The sign of a number, which zeros and infinities have, too. -/
def negative? : Binary64 → Option Bool
  | nan => none
  | infinity negative | finite negative _ => some negative

theorem negative?_ofUnits (negative : Bool) (num den : Nat) :
    (ofUnits negative num den).negative? = some negative := by
  unfold ofUnits
  split <;> rfl

section Uniqueness

theorem isCount_add_spacing (count : IsCount u) (greater : IsCount v) (less : u < v) :
    IsCount (u + spacing u) ∧ u + spacing u ≤ v := by
  have coarser : spacing u ∣ v := (spacing_dvd_spacing (log2_mono less.le)).trans greater.1
  have room := add_spacing_le count.1 coarser less
  refine ⟨⟨?_, room.trans greater.2⟩, room⟩
  -- The next count has as many bits, or it is the power of two behind.
  have top := add_spacing_le count.1 (spacing_dvd_two_pow (u := u) (Nat.le_succ _)) Nat.lt_log2_self
  rcases Nat.lt_or_eq_of_le top with below | power
  · have bits : (u + spacing u).log2 = u.log2 := by
      rw [Nat.log2_eq_iff (by have := spacing_pos u; omega)]
      refine ⟨?_, below⟩
      by_cases zero : u = 0
      · subst zero
        decide
      · exact Nat.le_add_right_of_le (Nat.log2_self_le zero)
    have same : spacing (u + spacing u) = spacing u := by rw [spacing, bits, ← spacing]
    rw [same]
    exact Nat.dvd_add count.1 (dvd_refl _)
  · rw [power]
    exact spacing_dvd_self_two_pow _

/-- Of two neighbouring counts one is odd. -/
theorem not_both_even (count : IsCount u) (greater : IsCount v) (less : u < v)
    (neighbours : ∀ w, IsCount w → ¬ (u < w ∧ w < v)) (even : 2 * spacing u ∣ u) :
    ¬ 2 * spacing v ∣ v := by
  intro even'
  have spaced := spacing_pos u
  obtain ⟨next, room⟩ := isCount_add_spacing count greater less
  obtain rfl : u + spacing u = v := by
    by_contra different
    exact neighbours _ next ⟨by omega, by omega⟩
  have finer : 2 * spacing u ∣ 2 * spacing (u + spacing u) :=
    Nat.mul_dvd_mul_left 2 (spacing_dvd_spacing (log2_mono less.le))
  have doubled : 2 * spacing u ∣ spacing u := (Nat.dvd_add_right even).mp (finer.trans even')
  have := Nat.le_of_dvd spaced doubled
  omega

/-- Of two neighbouring places one is odd: zero does not lie between them, so their sizes are neighbours. -/
theorem places_not_both_even (placed : x.place? = some p) (placed' : y.place? = some r) (less : p < r)
    (neighbours : ∀ (z : Binary64) (t : Int), z.place? = some t → ¬ (p < t ∧ t < r))
    (even : 2 * spacing p.natAbs ∣ p.natAbs) : ¬ 2 * spacing r.natAbs ∣ r.natAbs := by
  intro even'
  rcases Int.lt_or_le p 0 with negative | positive
  · have below : r ≤ 0 := by
      by_contra positive
      exact neighbours (finite false Magnitude.zero) 0 rfl ⟨negative, by omega⟩
    refine not_both_even (isCount_natAbs placed') (isCount_natAbs placed) (by omega) ?_ even' even
    rintro w count ⟨above, under⟩
    obtain ⟨z, there⟩ := exists_place?_of_count count true
    exact neighbours z _ there ⟨by simp; omega, by simp; omega⟩
  · refine not_both_even (isCount_natAbs placed) (isCount_natAbs placed') (by omega) ?_ even even'
    rintro w count ⟨above, under⟩
    obtain ⟨z, there⟩ := exists_place?_of_count count false
    exact neighbours z _ there ⟨by simp; omega, by simp; omega⟩

/-- What lies between two places that are as far from a number is nearer to it. -/
theorem gap_lt_of_between {t : Int} (tie : gap p q = gap r q) (above : p < t) (below : t < r) :
    gap t q < gap p q := by
  have above : (p : ℚ) < t := by exact_mod_cast above
  have below : (t : ℚ) < r := by exact_mod_cast below
  have middle : (p : ℚ) - q * unitsPerOne = -(r - q * unitsPerOne) :=
    (abs_eq_abs.mp tie).resolve_left (by linarith)
  have upper : (0 : ℚ) ≤ r - q * unitsPerOne := by linarith
  rw [gap, gap, middle, abs_neg, abs_of_nonneg upper, abs_lt]
  constructor <;> linarith

/-- At most one place is nearest. -/
theorem Nearest.place?_eq (near : x.Nearest q) (near' : y.Nearest q) : x.place? = y.place? := by
  obtain ⟨p, placed, closest⟩ := near
  obtain ⟨r, placed', closest'⟩ := near'
  rw [placed, placed', Option.some.injEq]
  by_contra different
  wlog less : p < r generalizing x y p r
  · exact this r placed' closest' p placed closest (Ne.symm different) (by omega)
  obtain ⟨nearer, even⟩ := closest y r placed' (Ne.symm different)
  obtain ⟨nearer', even'⟩ := closest' x p placed different
  have tie := le_antisymm nearer nearer'
  refine places_not_both_even placed placed' less ?_ (even tie) (even' tie.symm)
  rintro z t there ⟨above, below⟩
  exact (gap_lt_of_between tie above below).not_ge (closest z t there above.ne').1

end Uniqueness

end Binary64

namespace Decimal

open Binary64 (unitSign)

/-- The number that is written. -/
def value (d : Decimal) : ℚ := unitSign d.negative * (d.digits * 10 ^ d.exponent)

theorem value_ofParts (negative : Bool) (whole fraction : Text) (power : Int) :
    (ofParts negative whole fraction power).value = unitSign negative *
      ((whole.toNat + fraction.toNat / 10 ^ fraction.length) * 10 ^ power) := by
  have ten : (10 : ℚ) ≠ 0 := by norm_num
  rw [value, ofParts, Text.toNat_append, zpow_sub₀ ten, zpow_natCast]
  push_cast
  field_simp

theorem negative?_toBinary64 (d : Decimal) : d.toBinary64.negative? = some d.negative := by
  unfold toBinary64
  split_ifs
  · rfl
  · rfl
  · rfl
  · exact Binary64.negative?_ofUnits ..
  · exact Binary64.negative?_ofUnits ..

/-- A decimal number is read as the double nearest to it, however many digits it has and however large or
small its exponent is. -/
theorem nearest_toBinary64 (d : Decimal) : d.toBinary64.Nearest d.value := by
  have scaled {x : Binary64} {q : ℚ} (same : q = d.digits * 10 ^ d.exponent * unitsPerOne)
      (near : x.Nearest (unitSign d.negative * (q / unitsPerOne))) : x.Nearest d.value := by
    rwa [same, mul_div_cancel_right₀ _ unit_pos.ne'] at near
  have nonneg : (0 : ℚ) ≤ d.digits * 10 ^ d.exponent * unitsPerOne :=
    mul_nonneg (mul_nonneg (Nat.cast_nonneg _) (zpow_nonneg (by norm_num) _)) unit_pos.le
  unfold toBinary64
  split_ifs with none large small whole
  · refine scaled rfl (Binary64.nearest_of_count nonneg (nearestCount_zero nonneg ?_) rfl)
    rw [none, Nat.cast_zero, zero_mul, zero_mul]
    exact one_half_pos
  · refine scaled rfl (Binary64.nearest_of_count nonneg (nearestCount_unitLimit ?_) rfl)
    have beyond := le_of_large none large
    rw [unitLimit_eq, Nat.cast_mul]
    refine mul_le_mul_of_nonneg_right (le_trans ?_ beyond) unit_pos.le
    rw [Nat.cast_pow, Nat.cast_ofNat]
    exact le_mul_of_one_le_left (pow_nonneg two_pos.le _) one_le_two
  · refine scaled rfl (Binary64.nearest_of_count nonneg (nearestCount_zero nonneg ?_) rfl)
    have beneath := mul_lt_mul_of_pos_right (lt_of_small small) unit_pos
    have half : (2 * unitsPerOne : ℚ)⁻¹ * unitsPerOne = 1 / 2 := by
      rw [mul_inv, mul_assoc, inv_mul_cancel₀ unit_pos.ne', mul_one, one_div]
    rwa [half] at beneath
  · obtain ⟨n, power⟩ := Int.eq_ofNat_of_zero_le whole
    refine scaled ?_ (Binary64.nearest_ofUnits _ Nat.one_pos)
    rw [power, zpow_natCast, Int.toNat_natCast, Nat.pow_eq, Nat.cast_mul, Nat.cast_mul, Nat.cast_pow,
      Nat.cast_ofNat, Nat.cast_one, div_one]
  · obtain ⟨n, power⟩ := Int.eq_ofNat_of_zero_le (show 0 ≤ -d.exponent by omega)
    refine scaled ?_ (Binary64.nearest_ofUnits _ (Nat.pow_pos (by decide)))
    rw [power, show d.exponent = -n by omega, zpow_neg, zpow_natCast, Int.toNat_natCast, Nat.pow_eq,
      Nat.cast_mul, Nat.cast_pow, Nat.cast_ofNat, div_eq_mul_inv, mul_right_comm]

end Decimal

end Schemata

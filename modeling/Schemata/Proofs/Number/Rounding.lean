import Mathlib.Data.Nat.Cast.Order.Field
import Mathlib.Data.Nat.Log
import Mathlib.Data.Rat.Floor
import Mathlib.Tactic.FieldSimp
import Mathlib.Tactic.Linarith
import Mathlib.Tactic.Positivity
import Schemata.Value.Basic

/-! Rounding, seen from the result. A quotient less than half a unit from a natural number is rounded to
it, and a quotient that is off a representable count of units by less than its 2^54th part is rounded to
that count: even below a power of two, where the counts lie closer, none is nearer. No quotient is rounded
across a representable count, so these are their own nearest ones. Integers up to 2^53 are exact. -/
namespace Schemata

variable {num den m u : Nat}

/-- How far a natural number is off a quotient, by way of quotient and remainder. -/
theorem sub_quotient (positive : 0 < den) (k : Nat) :
    (k : ℚ) - num / den = (den * (k - (num / den : Nat)) - (num % den : Nat)) / den := by
  have scale : (0 : ℚ) < den := by exact_mod_cast positive
  have parts : (num : ℚ) = den * (num / den : Nat) + (num % den : Nat) := by
    exact_mod_cast (Nat.div_add_mod num den).symm
  rw [parts]
  field_simp
  ring

theorem nearestEven_error (positive : 0 < den) :
    |(nearestEven num den : ℚ) - num / den| ≤ 1 / 2 := by
  have scale : (0 : ℚ) < den := by exact_mod_cast positive
  have small : (num % den : Nat) < den := Nat.mod_lt num positive
  rw [sub_quotient positive, abs_div, abs_of_pos scale, div_le_iff₀ scale, abs_le]
  unfold nearestEven
  dsimp only
  split
  · rename_i down
    have half : 2 * ((num % den : Nat) : ℚ) ≤ den := by
      rcases down with below | ⟨tie, _⟩ <;> exact_mod_cast (by omega)
    constructor <;> linarith [Nat.cast_nonneg (α := ℚ) (num % den)]
  · rename_i up
    have half : (den : ℚ) ≤ 2 * (num % den : Nat) := by exact_mod_cast (by omega)
    have below : ((num % den : Nat) : ℚ) < den := by exact_mod_cast small
    push_cast
    constructor <;> linarith

/-- A quotient half way between two natural numbers is rounded to the even one. -/
theorem nearestEven_even (positive : 0 < den)
    (half : |(nearestEven num den : ℚ) - num / den| = 1 / 2) : 2 ∣ nearestEven num den := by
  have scale : (0 : ℚ) < den := by exact_mod_cast positive
  have small : ((num % den : Nat) : ℚ) < den := by exact_mod_cast Nat.mod_lt num positive
  rw [sub_quotient positive, abs_div, abs_of_pos scale, div_eq_iff scale.ne'] at half
  unfold nearestEven at half ⊢
  dsimp only at half ⊢
  split at half
  · rename_i down
    rw [sub_self, mul_zero, zero_sub, abs_neg, Nat.abs_cast] at half
    have tie : 2 * ((num % den : Nat) : ℚ) = den := by linarith
    have tie : 2 * (num % den) = den := by exact_mod_cast tie
    rw [if_pos down]
    omega
  · rename_i up
    rw [Nat.cast_add, Nat.cast_one, add_sub_cancel_left, mul_one, abs_of_pos (sub_pos.mpr small)] at half
    have tie : 2 * ((num % den : Nat) : ℚ) = den := by linarith
    have tie : 2 * (num % den) = den := by exact_mod_cast tie
    rw [if_neg up]
    omega

theorem nearestEven_of_close (positive : 0 < den) (close : |(m : ℚ) - num / den| < 1 / 2) :
    nearestEven num den = m := by
  have error := @nearestEven_error num _ positive
  have apart : |(nearestEven num den : ℚ) - m| < 1 := by
    rw [abs_lt] at close ⊢
    rw [abs_le] at error
    constructor <;> linarith
  have equal : |(nearestEven num den : Int) - (m : Int)| < 1 := by exact_mod_cast apart
  rw [Int.abs_lt_one_iff] at equal
  omega

/-- The distance between representable counts of units from this one on. -/
def spacing (u : Nat) : Nat := 2 ^ (u.log2 - 52)

theorem lt_spacing (u : Nat) : u < 2 ^ 53 * spacing u := by
  have top : u < 2 ^ (u.log2 + 1) := Nat.lt_log2_self
  have fits : 2 ^ (u.log2 + 1) ≤ 2 ^ (53 + (u.log2 - 52)) :=
    Nat.pow_le_pow_right (by decide) (by omega)
  rw [spacing, ← Nat.pow_add]
  omega

theorem log2_mono {a b : Nat} (le : a ≤ b) : a.log2 ≤ b.log2 := by
  rw [Nat.log2_eq_log_two, Nat.log2_eq_log_two]
  exact Nat.log_mono_right le

/-- Counts of more bits lie further apart. -/
theorem spacing_dvd_spacing {v : Nat} (bits : u.log2 ≤ v.log2) : spacing u ∣ spacing v :=
  Nat.pow_dvd_pow 2 (Nat.sub_le_sub_right bits 52)

theorem spacing_dvd_two_pow {k : Nat} (above : u.log2 ≤ k) : spacing u ∣ 2 ^ k :=
  Nat.pow_dvd_pow 2 (by omega)

/-- A multiple of the spacing below a power of two, or above the one that it reaches, leaves room for one
spacing. -/
theorem add_spacing_le {a b : Nat} (left : spacing u ∣ a) (right : spacing u ∣ b) (less : a < b) :
    a + spacing u ≤ b := by
  have gap := Nat.le_of_dvd (by omega) (Nat.dvd_sub right left)
  omega

theorem spacing_pos (u : Nat) : 0 < spacing u := Nat.two_pow_pos _

section Close

variable (grid : spacing u ∣ u) (nonzero : u ≠ 0) (positive : 0 < den)
  (close : |(num : ℚ) / den - u| * 2 ^ 54 < u)

include close in
theorem close_to_grid : |(num : ℚ) / den - u| < spacing u / 2 := by
  have size : (u : ℚ) < 2 ^ 53 * spacing u := by exact_mod_cast lt_spacing u
  have scale : (2 : ℚ) ^ 54 = 2 * 2 ^ 53 := by norm_num
  nlinarith

include grid close in
theorem log2_quotient_le : (num / den).log2 ≤ u.log2 := by
  have near := (abs_lt.mp (close_to_grid close)).2
  have top := add_spacing_le grid (spacing_dvd_two_pow (u := u) (Nat.le_succ _)) Nat.lt_log2_self
  have room : ((u + spacing u : Nat) : ℚ) ≤ (2 ^ (u.log2 + 1) : Nat) := by exact_mod_cast top
  have floor : ((num / den : Nat) : ℚ) ≤ num / den := Nat.cast_div_le
  have spaced : (0 : ℚ) < spacing u := by exact_mod_cast spacing_pos u
  have below : ((num / den : Nat) : ℚ) < (2 ^ (u.log2 + 1) : Nat) := by
    rw [Nat.cast_add] at room
    linarith
  have below : num / den < 2 ^ (u.log2 + 1) := by exact_mod_cast below
  by_cases zero : num / den = 0
  · rw [zero]
    exact Nat.zero_le _
  · exact Nat.le_of_lt_succ ((Nat.log2_lt zero).mpr below)

include grid nonzero close in
/-- Where the quotient has fewer bits than the count, the count is a power of two. -/
theorem two_pow_log2_eq (fewer : num / den < 2 ^ u.log2)
    (ceiling : (num : ℚ) / den < (num / den : Nat) + 1) : 2 ^ u.log2 = u := by
  have low : 2 ^ u.log2 ≤ u := Nat.log2_self_le nonzero
  have short : ((num / den : Nat) : ℚ) + 1 ≤ (2 ^ u.log2 : Nat) := by exact_mod_cast fewer
  by_contra different
  have above := add_spacing_le (spacing_dvd_two_pow (Nat.le_refl u.log2)) grid (by omega)
  have above : ((2 ^ u.log2 : Nat) : ℚ) + spacing u ≤ u := by exact_mod_cast above
  have near := (abs_lt.mp (close_to_grid close)).1
  have spaced : (0 : ℚ) < spacing u := by exact_mod_cast spacing_pos u
  linarith

include close in
/-- Close to a power of two the quotient reaches the power before. -/
theorem two_pow_le_quotient {k : Nat} (power : 2 ^ (k + 1) = u)
    (ceiling : (num : ℚ) / den < (num / den : Nat) + 1) : 2 ^ k ≤ num / den := by
  by_contra less
  have less : ((num / den : Nat) : ℚ) + 1 ≤ (2 ^ k : Nat) := by exact_mod_cast (by omega)
  have double : (u : ℚ) = 2 * (2 ^ k : Nat) := by
    rw [← power]
    push_cast
    ring
  have some : (0 : ℚ) < (2 ^ k : Nat) := by positivity
  have off := neg_abs_le ((num : ℚ) / den - u)
  linarith

include grid nonzero positive close in
/-- The quotient has as many bits as the count, or one less if the count is a power of two. -/
theorem le_spacing_quotient : u ≤ 2 ^ 53 * spacing (num / den) := by
  have ceiling : (num : ℚ) / den < (num / den : Nat) + 1 := by
    rw [div_lt_iff₀ (by exact_mod_cast positive)]
    exact_mod_cast Nat.lt_mul_of_div_lt (Nat.lt_succ_self _) positive
  have wide {k : Nat} (reached : 2 ^ k ≤ num / den) : 2 ^ (k + 1) ≤ 2 ^ 53 * spacing (num / den) := by
    have some : num / den ≠ 0 := (Nat.lt_of_lt_of_le (Nat.two_pow_pos k) reached).ne'
    have bits := (Nat.le_log2 some).mpr reached
    rw [spacing, ← Nat.pow_add]
    exact Nat.pow_le_pow_right (by decide) (by omega)
  by_cases reached : 2 ^ u.log2 ≤ num / den
  · exact Nat.le_trans (Nat.le_of_lt Nat.lt_log2_self) (wide reached)
  · have power := two_pow_log2_eq grid nonzero close (by omega) ceiling
    cases bits : u.log2 with
    | zero =>
      rw [bits] at power
      have := spacing_pos (num / den)
      omega
    | succ k =>
      rw [bits] at power
      have half := two_pow_le_quotient close power ceiling
      rw [← power]
      exact wide half

include grid nonzero positive close in
/-- A quotient off a representable count by less than its 2^54th part is rounded to that count. -/
theorem nearestUnits_of_close : nearestUnits num den = u := by
  have fine : spacing (num / den) ∣ u :=
    Nat.dvd_trans (spacing_dvd_spacing (log2_quotient_le grid close)) grid
  have wide := le_spacing_quotient grid nonzero positive close
  have spaced : (0 : ℚ) < spacing (num / den) := by exact_mod_cast spacing_pos (num / den)
  obtain ⟨m, same⟩ := fine
  have count : (u : ℚ) = spacing (num / den) * m := by exact_mod_cast same
  have half : |(num : ℚ) / den - u| < spacing (num / den) / 2 := by
    have wide : (u : ℚ) ≤ 2 ^ 53 * spacing (num / den) := by exact_mod_cast wide
    have scale : (2 : ℚ) ^ 54 = 2 * 2 ^ 53 := by norm_num
    nlinarith
  have scaled : nearestEven num (den * spacing (num / den)) = m := by
    apply nearestEven_of_close (Nat.mul_pos positive (spacing_pos _))
    have parts : (m : ℚ) - num / (den * spacing (num / den) : Nat) =
        -(num / den - u) / spacing (num / den) := by
      rw [count]
      push_cast
      field_simp
      ring
    rw [parts, abs_div, abs_neg, abs_of_pos spaced, div_lt_iff₀ spaced]
    linarith
  calc nearestUnits num den
      = nearestEven num (den * spacing (num / den)) * spacing (num / den) := rfl
    _ = u := by rw [scaled, Nat.mul_comm, ← same]

end Close

section Order

variable (positive : 0 < den)

include positive

theorem le_nearestEven (reached : m * den ≤ num) : m ≤ nearestEven num den := by
  have below : m ≤ num / den := (Nat.le_div_iff_mul_le positive).mpr reached
  unfold nearestEven
  dsimp only
  split <;> omega

theorem nearestEven_le_of_le_mul (under : num ≤ m * den) : nearestEven num den ≤ m := by
  rcases Nat.lt_or_eq_of_le under with less | rfl
  · have below : num / den < m := (Nat.div_lt_iff_lt_mul positive).mpr less
    exact Nat.le_trans (nearestEven_le num den) below
  · unfold nearestEven
    simp [positive]

/-- Rounding takes no quotient across a representable count. -/
theorem le_nearestUnits (grid : spacing u ∣ u) (reached : u * den ≤ num) :
    u ≤ nearestUnits num den := by
  have reached : u ≤ num / den := (Nat.le_div_iff_mul_le positive).mpr reached
  have onGrid {v : Nat} (fine : spacing (num / den) ∣ v) (below : v ≤ num / den) :
      v ≤ nearestUnits num den := by
    obtain ⟨k, rfl⟩ := fine
    have scaled : k * (den * spacing (num / den)) ≤ num := by
      have total := (Nat.le_div_iff_mul_le positive).mp below
      linarith
    have rounded := le_nearestEven (Nat.mul_pos positive (spacing_pos _)) scaled
    calc spacing (num / den) * k
        = k * spacing (num / den) := Nat.mul_comm _ _
      _ ≤ nearestUnits num den := Nat.mul_le_mul_right _ rounded
  by_cases bits : (num / den).log2 ≤ u.log2
  · exact onGrid (Nat.dvd_trans (spacing_dvd_spacing bits) grid) reached
  · -- The count need not be on the grid of a longer quotient, but a power of two between them is.
    have some : num / den ≠ 0 := by
      intro zero
      rw [zero] at bits
      exact bits (Nat.zero_le _)
    have power : u < 2 ^ (num / den).log2 :=
      Nat.lt_of_lt_of_le Nat.lt_log2_self (Nat.pow_le_pow_right (by decide) (by omega))
    have between := onGrid (spacing_dvd_two_pow (Nat.le_refl _)) (Nat.log2_self_le some)
    exact Nat.le_trans (Nat.le_of_lt power) between

theorem nearestUnits_le (grid : spacing u ∣ u) (under : num ≤ u * den) :
    nearestUnits num den ≤ u := by
  have below : num / den ≤ u := by
    have quotient := Nat.div_le_div_right (c := den) under
    rwa [Nat.mul_div_cancel _ positive] at quotient
  obtain ⟨k, same⟩ := Nat.dvd_trans (spacing_dvd_spacing (log2_mono below)) grid
  have scaled : num ≤ k * (den * spacing (num / den)) := by
    calc num ≤ u * den := under
      _ = k * (den * spacing (num / den)) := by
        rw [same]
        ring
  have rounded := nearestEven_le_of_le_mul (Nat.mul_pos positive (spacing_pos _)) scaled
  calc nearestUnits num den
      ≤ k * spacing (num / den) := Nat.mul_le_mul_right _ rounded
    _ = u := by rw [Nat.mul_comm, ← same]

/-- A representable count is its own nearest one. -/
theorem nearestUnits_mul (grid : spacing u ∣ u) : nearestUnits (u * den) den = u :=
  Nat.le_antisymm (nearestUnits_le positive grid (Nat.le_refl _))
    (le_nearestUnits positive grid (Nat.le_refl _))

end Order

theorem spacing_dvd_self_two_pow (k : Nat) : spacing (Nat.pow 2 k) ∣ Nat.pow 2 k :=
  spacing_dvd_two_pow Nat.log2_two_pow.le

/-- A multiple of a power of two is rounded to a multiple of it. -/
theorem two_pow_dvd_nearestUnits (n e : Nat) : Nat.pow 2 e ∣ nearestUnits (n * Nat.pow 2 e) 1 := by
  have parts : nearestUnits (n * Nat.pow 2 e) 1 =
      nearestEven (n * Nat.pow 2 e) (1 * spacing (n * Nat.pow 2 e / 1)) *
        spacing (n * Nat.pow 2 e / 1) := rfl
  rw [Nat.div_one] at parts
  rcases Nat.le_total e ((n * Nat.pow 2 e).log2 - 52) with coarse | fine
  · rw [parts]
    exact Nat.dvd_mul_left_of_dvd (Nat.pow_dvd_pow 2 coarse) _
  · have exact := nearestUnits_mul Nat.one_pos (Nat.dvd_mul_left_of_dvd (Nat.pow_dvd_pow 2 fine) n)
    rw [Nat.mul_one] at exact
    rw [exact]
    exact Nat.dvd_mul_left _ _

namespace Binary64

theorem unitsPerOne_pos : 0 < unitsPerOne := by
  unfold unitsPerOne
  generalize 1074 = e
  exact Nat.two_pow_pos e

theorem mul_unitsPerOne_lt_unitLimit {k : Nat} (small : m ≤ 2 ^ k) (room : k ≤ 1000) :
    m * unitsPerOne < unitLimit := by
  have bound : k + 1074 < limitExponent := by
    unfold limitExponent
    omega
  unfold unitsPerOne
  generalize 1074 = e at bound ⊢
  calc m * Nat.pow 2 e
      ≤ Nat.pow 2 k * Nat.pow 2 e := Nat.mul_le_mul_right _ small
    _ = Nat.pow 2 (k + e) := (Nat.pow_add 2 k e).symm
    _ < unitLimit := Nat.pow_lt_pow_right (by decide) bound

theorem spacing_dvd_units (size : Magnitude) : spacing size.units ∣ size.units := size.fits.2

theorem ofUnits_of_close {negative : Bool} {size : Magnitude} (nonzero : size.units ≠ 0)
    (positive : 0 < den) (close : |(num : ℚ) / den - size.units| * 2 ^ 54 < size.units) :
    ofUnits negative num den = .finite negative size := by
  have rounded := nearestUnits_of_close (spacing_dvd_units size) nonzero positive close
  unfold ofUnits
  simp only [rounded, size.fits.1, dite_true]

/-- A whole number of units that is representable is its own nearest number. -/
theorem ofUnits_units (negative : Bool) (size : Magnitude) :
    ofUnits negative size.units 1 = .finite negative size := by
  have rounded := nearestUnits_mul Nat.one_pos (spacing_dvd_units size)
  rw [Nat.mul_one] at rounded
  unfold ofUnits
  simp only [rounded, size.fits.1, dite_true]

section Integers

variable {negative : Bool} {size : Magnitude}

theorem units_of_ofUnits (near : ofUnits negative num den = .finite negative size) :
    size.units = nearestUnits num den := by
  unfold ofUnits at near
  split at near
  · cases near
    rfl
  · cases near

variable {n : Nat} (near : ofUnits negative (n * unitsPerOne) 1 = .finite negative size)

include near

/-- The double nearest to an integer is an integer. -/
theorem unitsPerOne_dvd_units : unitsPerOne ∣ size.units := by
  rw [units_of_ofUnits near]
  unfold unitsPerOne
  generalize 1074 = e
  exact two_pow_dvd_nearestUnits n e

theorem units_le_two_pow {k : Nat} (small : n ≤ Nat.pow 2 k) :
    size.units ≤ Nat.pow 2 k * unitsPerOne := by
  rw [units_of_ofUnits near]
  have total := Nat.mul_le_mul_right unitsPerOne small
  unfold unitsPerOne at total ⊢
  generalize 1074 = e at total ⊢
  have power : Nat.pow 2 k * Nat.pow 2 e = Nat.pow 2 (k + e) := (Nat.pow_add 2 k e).symm
  rw [power] at total ⊢
  exact nearestUnits_le Nat.one_pos (spacing_dvd_self_two_pow _) (by rwa [Nat.mul_one])

end Integers

/-- Integers up to 2^53 are exact. -/
theorem exists_ofInt_eq {n : Int} (small : n.natAbs ≤ 2 ^ 53) :
    ∃ negative size, ofInt n = .finite negative size ∧ signedUnits negative size = n * unitsPerOne := by
  have fits : Representable (n.natAbs * unitsPerOne) := by
    have below := mul_unitsPerOne_lt_unitLimit small (by decide)
    unfold unitsPerOne at below ⊢
    generalize 1074 = e at below ⊢
    exact representable_mul_two_pow small below
  refine ⟨decide (n < 0), ⟨_, fits⟩, ofUnits_units _ ⟨_, fits⟩, ?_⟩
  unfold signedUnits
  by_cases negative : n < 0
  · have size : (n.natAbs : Int) = -n := by omega
    rw [if_pos (decide_eq_true negative), Int.natCast_mul, size, Int.neg_mul, Int.neg_neg]
  · have size : (n.natAbs : Int) = n := by omega
    rw [if_neg (by rwa [decide_eq_true_eq]), Int.natCast_mul, size]

/-- Integers up to 2^53 lie where they should. -/
theorem place?_ofInt {n : Int} (small : n.natAbs ≤ 2 ^ 53) :
    (ofInt n).place? = some (n * unitsPerOne) := by
  obtain ⟨negative, size, exact, place⟩ := exists_ofInt_eq small
  rw [exact, ← place]
  rfl

end Binary64
end Schemata

import Mathlib.Data.EReal.Basic
import Schemata.Proofs.Number.Rounding

/-! Binary64 numbers as points of the extended real line. Comparisons of numbers are comparisons of these
points. An integer becomes the double nearest to it, which lies on the same side of any other double as
the integer itself does. -/
namespace Schemata.Binary64

/-- The real number that a number is, with the infinities at the ends of the line; none for
not-a-number. -/
noncomputable def real? : Binary64 → Option EReal
  | nan => none
  | infinity negative => some (if negative then ⊥ else ⊤)
  | finite negative size => some ((signedUnits negative size / unitsPerOne : ℝ) : EReal)

variable {x : Binary64} {a : EReal} {p q k n : Int}

section Places

/-- A place is a representable count of units or the limit of these, with a sign. -/
theorem exists_count (placed : x.place? = some p) : ∃ u : Nat, spacing u ∣ u ∧ u ≤ unitLimit ∧
    (p = u ∨ p = -u) := by
  cases x with
  | nan => cases placed
  | infinity negative =>
    cases placed
    exact ⟨unitLimit, spacing_dvd_self_two_pow _, Nat.le_refl _, by cases negative <;> simp⟩
  | finite negative size =>
    cases placed
    exact ⟨size.units, spacing_dvd_units size, Nat.le_of_lt size.fits.1, by cases negative <;> simp⟩

/-- The count of units that a quotient is rounded to; beyond the format, its limit. -/
def roundedUnits (num den : Nat) : Nat := min (nearestUnits num den) unitLimit

theorem place?_ofUnits (negative : Bool) (num den : Nat) : (ofUnits negative num den).place? =
    some (if negative then -(roundedUnits num den : Int) else roundedUnits num den) := by
  unfold ofUnits roundedUnits
  split
  · rename_i small
    rw [Nat.min_eq_left (Nat.le_of_lt small)]
    rfl
  · rename_i large
    rw [Nat.min_eq_right (Nat.not_lt.mp large)]
    rfl

/-- No integer is rounded across a double. -/
theorem place?_ofInt_bounds (placed : x.place? = some p) (rounded : (ofInt n).place? = some q) :
    (p ≤ n * unitsPerOne → p ≤ q) ∧ (n * unitsPerOne ≤ p → q ≤ p) := by
  obtain ⟨u, grid, small, signed⟩ := exists_count placed
  have unit : (0 : Int) < unitsPerOne := by exact_mod_cast unitsPerOne_pos
  have above (reached : u ≤ n.natAbs * unitsPerOne) :
      u ≤ roundedUnits (n.natAbs * unitsPerOne) 1 := by
    refine Nat.le_min.mpr ⟨le_nearestUnits Nat.one_pos grid ?_, small⟩
    rwa [Nat.mul_one]
  have below (under : n.natAbs * unitsPerOne ≤ u) :
      roundedUnits (n.natAbs * unitsPerOne) 1 ≤ u := by
    refine Nat.le_trans (Nat.min_le_left _ _) (nearestUnits_le Nat.one_pos grid ?_)
    rwa [Nat.mul_one]
  rw [ofInt, place?_ofUnits] at rounded
  generalize roundedUnits (n.natAbs * unitsPerOne) 1 = r at above below rounded
  -- Below zero the two bounds change places; across zero the signs decide.
  by_cases negative : n < 0
  · rw [if_pos (decide_eq_true negative)] at rounded
    have size : ((n.natAbs * unitsPerOne : Nat) : Int) = -(n * unitsPerOne) := by
      rw [Nat.cast_mul, Int.ofNat_natAbs_of_nonpos negative.le, Int.neg_mul]
    have less := Int.mul_neg_of_neg_of_pos negative unit
    have same := Option.some.inj rounded
    omega
  · rw [if_neg (by rwa [decide_eq_true_eq])] at rounded
    have size : ((n.natAbs * unitsPerOne : Nat) : Int) = n * unitsPerOne := by
      rw [Nat.cast_mul, Int.natAbs_of_nonneg (by omega)]
    have more := Int.mul_nonneg (Int.not_lt.mp negative) unit.le
    have same := Option.some.inj rounded
    omega

theorem exists_place?_ofInt (n : Int) : ∃ q, (ofInt n).place? = some q := ⟨_, place?_ofUnits ..⟩

/-- An integer up to 2^53 and the double of another one lie in the order of the two integers. -/
theorem place?_ofInt_order {m : Int} (small : m.natAbs ≤ 2 ^ 53)
    (rounded : (ofInt n).place? = some q) :
    (m ≤ n → m * unitsPerOne ≤ q) ∧ (n ≤ m → q ≤ m * unitsPerOne) := by
  obtain ⟨up, down⟩ := place?_ofInt_bounds (place?_ofInt small) rounded
  have unit : (0 : Int) ≤ unitsPerOne := Int.natCast_nonneg _
  exact ⟨fun le => up (Int.mul_le_mul_of_nonneg_right le unit),
    fun le => down (Int.mul_le_mul_of_nonneg_right le unit)⟩

theorem place?_ofInt_sign (rounded : (ofInt n).place? = some q) :
    (0 < q ↔ 0 < n) ∧ (q < 0 ↔ n < 0) := by
  have unit : (0 : Int) < unitsPerOne := by exact_mod_cast unitsPerOne_pos
  have zero := place?_ofInt_order (m := 0) (by decide) rounded
  have one := place?_ofInt_order (m := 1) (by decide) rounded
  have minusOne := place?_ofInt_order (m := -1) (by decide) rounded
  rw [Int.zero_mul] at zero
  rw [Int.one_mul] at one
  rw [Int.neg_one_mul] at minusOne
  omega

theorem place?_infinity_ne (b c : Bool) (size : Magnitude) :
    (infinity b).place? ≠ (finite c size).place? := by
  have small := size.fits.1
  cases b <;> cases c <;> simp [place?] <;> omega

/-- Away from zero, a place has one number. -/
theorem eq_of_place?_eq {y : Binary64} (placed : x.place? = some p) (placed' : y.place? = some p)
    (nonzero : p ≠ 0) : x = y := by
  have same := placed.trans placed'.symm
  cases x with
  | nan => cases placed
  | infinity b =>
    cases y with
    | nan => cases placed'
    | infinity c =>
      have limit : 0 < unitLimit := Nat.two_pow_pos _
      cases b <;> cases c <;> simp [place?] at same ⊢ <;> omega
    | finite c size => exact absurd same (place?_infinity_ne b c size)
  | finite b size =>
    cases y with
    | nan => cases placed'
    | infinity c => exact absurd same.symm (place?_infinity_ne c b size)
    | finite c size' =>
      obtain ⟨u, fits⟩ := size
      obtain ⟨v, fits'⟩ := size'
      cases placed
      cases b <;> cases c <;> simp [place?] at same nonzero ⊢ <;> omega

/-- A number in the place of a double that an integer is rounded to is that double. -/
theorem eq_ofInt_of_place? (placed : x.place? = some p) (rounded : (ofInt n).place? = some p)
    (inexact : p ≠ n * unitsPerOne) : x = ofInt n := by
  refine eq_of_place?_eq placed rounded fun zero => inexact ?_
  have signs := place?_ofInt_sign rounded
  have none : n = 0 := by omega
  rw [zero, none, Int.zero_mul]

theorem le_eq_true_iff {y : Binary64} (placed : x.place? = some p) (placed' : y.place? = some q) :
    x.le y = true ↔ p ≤ q := by
  simp only [le, placed, placed', decide_eq_true_eq]

theorem lt_eq_true_iff {y : Binary64} (placed : x.place? = some p) (placed' : y.place? = some q) :
    x.lt y = true ↔ p < q := by
  simp only [lt, placed, placed', decide_eq_true_eq]

/-- A number and the double of an integer compare as the number and the integer do, unless the number is
that double. -/
theorem le_ofInt_iff (placed : x.place? = some p) :
    x.le (ofInt n) = true ↔ p ≤ n * unitsPerOne ∨ x = ofInt n := by
  obtain ⟨q, rounded⟩ := exists_place?_ofInt n
  obtain ⟨up, down⟩ := place?_ofInt_bounds placed rounded
  rw [le_eq_true_iff placed rounded]
  constructor
  · intro order
    by_cases exact : p ≤ n * unitsPerOne
    · exact .inl exact
    · obtain rfl : p = q := Int.le_antisymm order (down (Int.not_le.mp exact).le)
      exact .inr (eq_ofInt_of_place? placed rounded fun same => exact same.le)
  · rintro (exact | rfl)
    · exact up exact
    · exact (Option.some.inj (placed.symm.trans rounded)).le

theorem ofInt_le_iff (placed : x.place? = some p) :
    (ofInt n).le x = true ↔ n * unitsPerOne ≤ p ∨ x = ofInt n := by
  obtain ⟨q, rounded⟩ := exists_place?_ofInt n
  obtain ⟨up, down⟩ := place?_ofInt_bounds placed rounded
  rw [le_eq_true_iff rounded placed]
  constructor
  · intro order
    by_cases exact : n * unitsPerOne ≤ p
    · exact .inl exact
    · obtain rfl : p = q := Int.le_antisymm (up (Int.not_le.mp exact).le) order
      exact .inr (eq_ofInt_of_place? placed rounded fun same => exact same.ge)
  · rintro (exact | rfl)
    · exact down exact
    · exact (Option.some.inj (placed.symm.trans rounded)).ge

end Places

section Points

theorem exists_place? (real : x.real? = some a) : ∃ p, x.place? = some p := by
  cases x with
  | nan => cases real
  | infinity | finite => exact ⟨_, rfl⟩

theorem unit_pos_real : (0 : ℝ) < unitsPerOne := by exact_mod_cast unitsPerOne_pos

variable (real : x.real? = some a) (placed : x.place? = some p)

include real placed

theorem point_cases : (a = ⊥ ∧ p = -unitLimit) ∨ (a = ⊤ ∧ p = unitLimit) ∨
    a = ((p / unitsPerOne : ℝ) : EReal) := by
  cases x with
  | nan => cases real
  | infinity negative =>
    cases real
    cases placed
    cases negative with
    | true => exact .inl ⟨rfl, rfl⟩
    | false => exact .inr (.inl ⟨rfl, rfl⟩)
  | finite negative size =>
    cases real
    cases placed
    exact .inr (.inr rfl)

theorem real_le_iff (inside : k.natAbs < unitLimit) :
    a ≤ ((k / unitsPerOne : ℝ) : EReal) ↔ p ≤ k := by
  rcases point_cases real placed with ⟨rfl, rfl⟩ | ⟨rfl, rfl⟩ | rfl
  · exact iff_of_true bot_le (by omega)
  · exact iff_of_false (not_le.mpr (EReal.coe_lt_top _)) (by omega)
  · rw [EReal.coe_le_coe_iff, div_le_div_iff_of_pos_right unit_pos_real, Int.cast_le]

theorem le_real_iff (inside : k.natAbs < unitLimit) :
    ((k / unitsPerOne : ℝ) : EReal) ≤ a ↔ k ≤ p := by
  rcases point_cases real placed with ⟨rfl, rfl⟩ | ⟨rfl, rfl⟩ | rfl
  · exact iff_of_false (not_le.mpr (EReal.bot_lt_coe _)) (by omega)
  · exact iff_of_true le_top (by omega)
  · rw [EReal.coe_le_coe_iff, div_le_div_iff_of_pos_right unit_pos_real, Int.cast_le]

end Points
end Schemata.Binary64

import Schemata.Proofs.Constraint.Registry
import Schemata.Proofs.Number.Reals

/-! Rules on numbers, asked about integers. All of them look at the double nearest to the integer, so a
bound is met where the integer meets it and also where it is that double. Signs and the range of safe
integers are seen exactly, and up to 2^53 so is every bound. -/
namespace Schemata

open Binary64 (unitsPerOne)

/-- A constraint on numbers that has this rule alone finds no fault with the value if the condition
holds, and else says something against it. -/
def Check.Decides (check : Check) (v : Value) (condition : Prop) : Prop :=
  ∀ message, ∃ c complaints,
    (Constraint.ofKind .number).register (.check check) message = .ok c ∧
      c.violations v = .ok complaints ∧ (complaints = [] ↔ condition)

theorem Check.decides_of_accepts {check : Check} {v : Value} {answer : Bool} {condition : Prop}
    (number : v.kind = .number) (checked : check.accepts v = .ok answer)
    (right : answer = true ↔ condition) : check.Decides v condition := by
  intro message
  obtain ⟨c, registered, judged⟩ := Constraint.violations_alone number checked message
  refine ⟨c, _, registered, judged, ?_⟩
  rw [← right]
  cases answer <;> simp

namespace Binary64

variable {x : Binary64} {a : EReal} {p q : Int} (n : Int64)

theorem natAbs_mul_lt_unitLimit : (n.toInt * unitsPerOne).natAbs < unitLimit := by
  have least := Int64.le_toInt n
  have most := Int64.toInt_lt n
  rw [Int.natAbs_mul, Int.natAbs_natCast]
  exact mul_unitsPerOne_lt_unitLimit (show n.toInt.natAbs ≤ 2 ^ 63 by omega) (by decide)

theorem point_int : (((n.toInt * unitsPerOne : Int) / unitsPerOne : ℝ) : EReal) = (n.toInt : ℝ) := by
  rw [Int.cast_mul, Int.cast_natCast, mul_div_cancel_right₀ _ unit_pos_real.ne']

theorem le_ofInt64_iff (real : x.real? = some a) :
    x.le (Value.ofInt64 n) = true ↔ a ≤ (n.toInt : ℝ) ∨ x = Value.ofInt64 n := by
  obtain ⟨p, placed⟩ := exists_place? real
  rw [← point_int, real_le_iff real placed (natAbs_mul_lt_unitLimit n)]
  exact le_ofInt_iff placed

theorem ofInt64_le_iff (real : x.real? = some a) :
    (Value.ofInt64 n).le x = true ↔ (n.toInt : ℝ) ≤ a ∨ x = Value.ofInt64 n := by
  obtain ⟨p, placed⟩ := exists_place? real
  rw [← point_int, le_real_iff real placed (natAbs_mul_lt_unitLimit n)]
  exact ofInt_le_iff placed

theorem place?_zero : (0 : Binary64).place? = some 0 := by
  have zero := place?_ofInt (n := 0) (by decide)
  rwa [Int.zero_mul] at zero

theorem zero_lt_ofInt64_iff : Binary64.lt 0 (Value.ofInt64 n) = true ↔ 0 < n.toInt := by
  obtain ⟨q, rounded⟩ := exists_place?_ofInt n.toInt
  refine (lt_eq_true_iff place?_zero rounded).trans ?_
  exact (place?_ofInt_sign rounded).1

theorem ofInt64_lt_zero_iff : (Value.ofInt64 n).lt 0 = true ↔ n.toInt < 0 := by
  obtain ⟨q, rounded⟩ := exists_place?_ofInt n.toInt
  refine (lt_eq_true_iff rounded place?_zero).trans ?_
  exact (place?_ofInt_sign rounded).2

theorem place?_abs (placed : x.place? = some p) : x.abs.place? = some |p| := by
  cases x with
  | nan => cases placed
  | infinity negative | finite negative =>
    cases placed
    cases negative <;> simp [abs, place?]

/-- Beyond 2^53 - 1 an integer is rounded to 2^53 at least. -/
theorem abs_ofInt64_le_iff :
    (Value.ofInt64 n).abs.le maxSafeInteger = true ↔ |n.toInt| ≤ 2 ^ 53 - 1 := by
  obtain ⟨q, rounded⟩ := exists_place?_ofInt n.toInt
  have greatest := place?_ofInt (n := 9007199254740991) (by decide)
  have unit : (0 : Int) < unitsPerOne := by exact_mod_cast unitsPerOne_pos
  obtain ⟨_, inside⟩ := place?_ofInt_order (m := 9007199254740991) (by decide) rounded
  obtain ⟨inside', _⟩ := place?_ofInt_order (m := -9007199254740991) (by decide) rounded
  obtain ⟨outside, _⟩ := place?_ofInt_order (m := 9007199254740992) (by decide) rounded
  obtain ⟨_, outside'⟩ := place?_ofInt_order (m := -9007199254740992) (by decide) rounded
  rw [maxSafeInteger, Value.ofInt64, le_eq_true_iff (place?_abs rounded) greatest, abs_le, abs_le]
  constructor
  · rintro ⟨least, most⟩
    constructor
    · by_contra below
      have := outside' (by omega)
      linarith
    · by_contra above
      have := outside (by omega)
      linarith
  · rintro ⟨least, most⟩
    have := inside most
    have := inside' least
    constructor <;> linarith

theorem real?_ofInt64 {n : Int64} (small : n.toInt.natAbs ≤ 2 ^ 53) :
    (Value.ofInt64 n).real? = some ((n.toInt : ℝ) : EReal) := by
  obtain ⟨negative, size, exact, units⟩ := exists_ofInt_eq small
  rw [Value.ofInt64, exact, ← point_int, ← units]
  rfl

end Binary64

/-- What the rules on numbers make of an integer. A bound is met where the integer meets it as a real
number, or where the bound is the double nearest to the integer; that double is the integer itself up to
2^53. -/
theorem numberRules_of_integer {low high : Binary64} {a b : EReal} (real : low.real? = some a)
    (real' : high.real? = some b) (n : Int64) :
    (Check.atLeast low).Decides (.int n) (a ≤ (n.toInt : ℝ) ∨ low = Value.ofInt64 n) ∧
    (Check.atMost high).Decides (.int n) ((n.toInt : ℝ) ≤ b ∨ high = Value.ofInt64 n) ∧
    (Check.between low high).Decides (.int n)
      ((a ≤ (n.toInt : ℝ) ∨ low = Value.ofInt64 n) ∧ ((n.toInt : ℝ) ≤ b ∨ high = Value.ofInt64 n)) ∧
    Check.positive.Decides (.int n) (0 < n.toInt) ∧
    Check.negative.Decides (.int n) (n.toInt < 0) ∧
    Check.integer.Decides (.int n) (|n.toInt| ≤ 2 ^ 53 - 1) ∧
    (|n.toInt| ≤ 2 ^ 53 → (Value.ofInt64 n).real? = some ((n.toInt : ℝ) : EReal)) := by
  have atLeast := Binary64.le_ofInt64_iff n real
  have atMost := Binary64.ofInt64_le_iff n real'
  refine ⟨?_, ?_, ?_, ?_, ?_, ?_, ?_⟩
  · exact Check.decides_of_accepts rfl rfl atLeast
  · exact Check.decides_of_accepts rfl rfl atMost
  · refine Check.decides_of_accepts rfl rfl ?_
    rw [Bool.and_eq_true, atLeast, atMost]
  · exact Check.decides_of_accepts rfl rfl (Binary64.zero_lt_ofInt64_iff n)
  · exact Check.decides_of_accepts rfl rfl (Binary64.ofInt64_lt_zero_iff n)
  · exact Check.decides_of_accepts rfl rfl (Binary64.abs_ofInt64_le_iff n)
  · intro small
    exact Binary64.real?_ofInt64 (by rw [Int.abs_eq_natAbs] at small; omega)

/-- Where the bound is the double of the next greater integer. -/
theorem numberRules_of_integer_rounded :
    (Value.ofInt64 9007199254740992).real? = some (((9007199254740992 : Int64).toInt : ℝ) : EReal) ∧
    (Check.atMost (Value.ofInt64 9007199254740992)).Decides (.int 9007199254740993)
      (((9007199254740993 : Int64).toInt : ℝ) ≤
          (((9007199254740992 : Int64).toInt : ℝ) : EReal) ∨
        Value.ofInt64 9007199254740992 = Value.ofInt64 9007199254740993) := by
  have real := Binary64.real?_ofInt64 (n := 9007199254740992) (by decide)
  exact ⟨real, (numberRules_of_integer real real 9007199254740993).2.1⟩

/-- An integer above a bound, and a constraint with that bound that accepts it. -/
theorem atMost_accepts_greater :
    (Value.ofInt64 9007199254740992).real? = some ((9007199254740992 : ℝ) : EReal) ∧
    ((9007199254740992 : ℝ) : EReal) < ((9007199254740993 : Int64).toInt : ℝ) ∧
    ∃ c, (Constraint.ofKind .number).register
        (.check (.atMost (Value.ofInt64 9007199254740992))) [] = .ok c ∧
      c.violations (.int 9007199254740993) = .ok [] := by
  have real := Binary64.real?_ofInt64 (n := 9007199254740992) (by decide)
  have rounded : Value.ofInt64 9007199254740992 = Value.ofInt64 9007199254740993 := by
    decide +kernel
  have decides : (Check.atMost _).Decides (.int 9007199254740993) _ :=
    Check.decides_of_accepts rfl rfl (Binary64.ofInt64_le_iff 9007199254740993 real)
  obtain ⟨c, complaints, registered, judged, decided⟩ := decides []
  refine ⟨real.trans (by congr 2), ?_, c, registered, ?_⟩
  · have integer : (9007199254740993 : Int64).toInt = 9007199254740993 := by decide
    rw [EReal.coe_lt_coe_iff, integer]
    norm_num
  · rw [judged, decided.mpr (.inr rounded)]

end Schemata

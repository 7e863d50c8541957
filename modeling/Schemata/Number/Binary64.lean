/-! Binary64 numbers on the integer grid of units of 2^-1074, without machine floating point. A
finite number is a sign and a count of units that fits 53 significant bits below 2^1024, so every
value of `Binary64` is a number of the format and both zeros and one not-a-number are among them.
Every operation rounds its exact result once, to the nearest number and to the even neighbour on a
tie. -/
namespace Schemata

/-- The quotient rounded to the nearest natural number, a half to the even neighbour. -/
def nearestEven (num den : Nat) : Nat :=
  let quotient := num / den
  let twice := 2 * (num % den)
  if twice < den ∨ (twice = den ∧ quotient % 2 = 0) then quotient else quotient + 1

theorem nearestEven_le (num den : Nat) : nearestEven num den ≤ num / den + 1 := by
  unfold nearestEven
  dsimp only
  split <;> omega

/-- The units of 2^1024 are this power of two. -/
@[irreducible] def limitExponent : Nat := 2098

/-- 2^1024 in units of 2^-1074: every finite number is closer to zero. -/
def unitLimit : Nat := Nat.pow 2 limitExponent

theorem two_pow_le_unitLimit {k : Nat} (h : k ≤ limitExponent) : Nat.pow 2 k ≤ unitLimit :=
  Nat.pow_le_pow_right (Nat.succ_pos 1) h

/-- A count of units that binary64 holds exactly: at most 53 significant bits, below 2^1024. -/
def Representable (units : Nat) : Prop :=
  units < unitLimit ∧ Nat.pow 2 (units.log2 - 52) ∣ units

instance (units : Nat) : Decidable (Representable units) :=
  inferInstanceAs (Decidable (_ ∧ _))

theorem representable_mul_two_pow {m e : Nat} (short : m ≤ Nat.pow 2 53)
    (small : m * Nat.pow 2 e < unitLimit) : Representable (m * Nat.pow 2 e) := by
  refine ⟨small, ?_⟩
  have split : Nat.pow 2 (53 + e) = Nat.pow 2 53 * Nat.pow 2 e := Nat.pow_add 2 53 e
  by_cases zero : m * Nat.pow 2 e = 0
  · rw [zero]
    exact Nat.dvd_zero _
  by_cases top : m = Nat.pow 2 53
  · have bits : (Nat.pow 2 (53 + e)).log2 = 53 + e := Nat.log2_two_pow
    rw [top, ← split, bits]
    exact Nat.pow_dvd_pow 2 (by omega)
  · have below : m * Nat.pow 2 e < Nat.pow 2 (53 + e) := by
      rw [split]
      exact Nat.mul_lt_mul_of_pos_right (Nat.lt_of_le_of_ne short top) (Nat.two_pow_pos e)
    have bits : (m * Nat.pow 2 e).log2 < 53 + e := (Nat.log2_lt zero).mpr below
    exact Nat.dvd_trans (Nat.pow_dvd_pow 2 (by omega)) (Nat.dvd_mul_left _ _)

/-- The representable count nearest to `num / den` units, ignoring the upper limit of the format. -/
def nearestUnits (num den : Nat) : Nat :=
  let e := (num / den).log2 - 52
  nearestEven num (den * Nat.pow 2 e) * Nat.pow 2 e

theorem representable_nearestUnits {num den : Nat} (small : nearestUnits num den < unitLimit) :
    Representable (nearestUnits num den) := by
  refine representable_mul_two_pow ?_ small
  have le := nearestEven_le num (den * Nat.pow 2 ((num / den).log2 - 52))
  rw [← Nat.div_div_eq_div_mul] at le
  have split : Nat.pow 2 (53 + ((num / den).log2 - 52)) =
      Nat.pow 2 53 * Nat.pow 2 ((num / den).log2 - 52) := Nat.pow_add ..
  have bits : num / den < Nat.pow 2 (53 + ((num / den).log2 - 52)) :=
    Nat.lt_of_lt_of_le Nat.lt_log2_self (Nat.pow_le_pow_right (by decide) (by omega))
  rw [split] at bits
  have := Nat.div_lt_of_lt_mul (Nat.mul_comm _ _ ▸ bits)
  exact Nat.le_trans le this

/-- The size of a finite number, in units of 2^-1074. -/
structure Magnitude where
  units : Nat
  fits : Representable units
deriving DecidableEq

/-- A binary64 number; all not-a-number encodings are one value. -/
inductive Binary64 where
  | nan
  | infinity (negative : Bool)
  | finite (negative : Bool) (size : Magnitude)
deriving DecidableEq

def Magnitude.zero : Magnitude :=
  ⟨0, Nat.lt_of_lt_of_le (Nat.two_pow_pos 0) (two_pow_le_unitLimit (Nat.zero_le _)),
    Nat.dvd_zero _⟩

namespace Binary64

/-- How many units of 2^-1074 make one. -/
def unitsPerOne : Nat := Nat.pow 2 1074

/-- The number nearest to `num / den` units with the given sign; beyond the format, infinity. -/
def ofUnits (negative : Bool) (num den : Nat) : Binary64 :=
  if small : nearestUnits num den < unitLimit then
    .finite negative ⟨nearestUnits num den, representable_nearestUnits small⟩
  else .infinity negative

def ofInt (n : Int) : Binary64 := ofUnits (n < 0) (n.natAbs * unitsPerOne) 1

instance : OfNat Binary64 n := ⟨ofInt n⟩

/-- The place on the number line in units, infinities just outside all finite numbers; none for
not-a-number. Comparisons of numbers are comparisons of places. -/
def place? : Binary64 → Option Int
  | nan => none
  | infinity negative => some (if negative then -unitLimit else unitLimit)
  | finite negative size => some (if negative then -size.units else size.units)

/-- Numeric equality: both zeros are equal, not-a-number equals nothing. -/
def equal (x y : Binary64) : Bool :=
  match x.place?, y.place? with
  | some a, some b => a == b
  | _, _ => false

def le (x y : Binary64) : Bool :=
  match x.place?, y.place? with
  | some a, some b => a ≤ b
  | _, _ => false

def lt (x y : Binary64) : Bool :=
  match x.place?, y.place? with
  | some a, some b => a < b
  | _, _ => false

def isNaN : Binary64 → Bool
  | nan => true
  | _ => false

def isFinite : Binary64 → Bool
  | finite .. => true
  | _ => false

/-- Finite without a fractional part. -/
def isIntegral : Binary64 → Bool
  | finite _ size => size.units % unitsPerOne == 0
  | _ => false

def abs : Binary64 → Binary64
  | nan => nan
  | infinity _ => infinity false
  | finite _ size => finite false size

def neg : Binary64 → Binary64
  | nan => nan
  | infinity negative => infinity (!negative)
  | finite negative size => finite (!negative) size

/-- The exact sum of two finite numbers in units, signs included. -/
def signedUnits (negative : Bool) (size : Magnitude) : Int :=
  if negative then -size.units else size.units

def add : Binary64 → Binary64 → Binary64
  | nan, _ | _, nan => nan
  | infinity a, infinity b => if a = b then infinity a else nan
  | infinity a, finite .. => infinity a
  | finite .., infinity b => infinity b
  | finite a x, finite b y =>
    let sum := signedUnits a x + signedUnits b y
    if sum = 0 then finite (a && b) Magnitude.zero else ofUnits (sum < 0) sum.natAbs 1

def mul : Binary64 → Binary64 → Binary64
  | nan, _ | _, nan => nan
  | infinity a, infinity b => infinity (a != b)
  | infinity a, finite b y => if y.units = 0 then nan else infinity (a != b)
  | finite a x, infinity b => if x.units = 0 then nan else infinity (a != b)
  | finite a x, finite b y => ofUnits (a != b) (x.units * y.units) unitsPerOne

def div : Binary64 → Binary64 → Binary64
  | nan, _ | _, nan => nan
  | infinity _, infinity _ => nan
  | infinity a, finite b _ => infinity (a != b)
  | finite a _, infinity b => finite (a != b) Magnitude.zero
  | finite a x, finite b y =>
    if y.units = 0 then (if x.units = 0 then nan else infinity (a != b))
    else ofUnits (a != b) (x.units * unitsPerOne) y.units

/-- The largest integer that is not above a finite number. -/
def floorInt (negative : Bool) (size : Magnitude) : Int :=
  (signedUnits negative size).fdiv unitsPerOne

/-- Rounded down to an integer; zeros and infinities keep their sign. -/
def floor : Binary64 → Binary64
  | finite negative size =>
    let n := floorInt negative size
    if n = 0 then finite negative Magnitude.zero else ofInt n
  | x => x

/-- Cut toward zero to 64 bits; whatever has no such integer gives the least one. -/
def toInt64 : Binary64 → Int64
  | finite negative size =>
    let n := (signedUnits negative size).tdiv unitsPerOne
    if Int64.minValue.toInt ≤ n ∧ n ≤ Int64.maxValue.toInt then Int64.ofInt n else Int64.minValue
  | _ => Int64.minValue

/-- 2^53 - 1, the end of the range in which neighbouring integers stay apart. -/
def maxSafeInteger : Binary64 := ofInt 9007199254740991

theorem representable_word {fraction exponent : Nat} (h : exponent < 2047)
    (hf : fraction < Nat.pow 2 52) :
    Representable ((Nat.pow 2 52 + fraction) * Nat.pow 2 (exponent - 1)) := by
  have double : Nat.pow 2 53 = 2 * Nat.pow 2 52 := rfl
  refine representable_mul_two_pow (by omega) ?_
  calc (Nat.pow 2 52 + fraction) * Nat.pow 2 (exponent - 1)
      < Nat.pow 2 53 * Nat.pow 2 (exponent - 1) :=
        Nat.mul_lt_mul_of_pos_right (by omega) (Nat.two_pow_pos _)
    _ = Nat.pow 2 (53 + (exponent - 1)) := (Nat.pow_add ..).symm
    _ ≤ unitLimit := two_pow_le_unitLimit (by unfold limitExponent; omega)

theorem representable_fraction {fraction : Nat} (hf : fraction < Nat.pow 2 52) :
    Representable fraction := by
  have double : Nat.pow 2 53 = 2 * Nat.pow 2 52 := rfl
  have one : fraction * Nat.pow 2 0 = fraction := Nat.mul_one fraction
  have h := representable_mul_two_pow (m := fraction) (e := 0) (by omega) (by
    rw [one]
    exact Nat.lt_of_lt_of_le hf (two_pow_le_unitLimit (by unfold limitExponent; omega)))
  rwa [one] at h

/-- The number that 64 bits encode: sign, eleven exponent bits, 52 fraction bits. -/
def ofBits (word : UInt64) : Binary64 :=
  let negative := decide (Nat.pow 2 63 ≤ word.toNat)
  let exponent := word.toNat / Nat.pow 2 52 % Nat.pow 2 11
  let fraction := word.toNat % Nat.pow 2 52
  have hf : fraction < Nat.pow 2 52 := Nat.mod_lt _ (Nat.two_pow_pos _)
  if exponent = 0 then .finite negative ⟨fraction, representable_fraction hf⟩
  else if h : exponent < 2047 then
    .finite negative
      ⟨(Nat.pow 2 52 + fraction) * Nat.pow 2 (exponent - 1), representable_word h hf⟩
  else if fraction = 0 then .infinity negative
  else .nan

/-- The encoding of a number; not-a-number has the quiet one with no other bit set. -/
def toBits (x : Binary64) : UInt64 :=
  let signed (negative : Bool) (rest : Nat) :=
    UInt64.ofNat ((if negative then Nat.pow 2 63 else 0) + rest)
  match x with
  | nan => signed false (2047 * Nat.pow 2 52 + Nat.pow 2 51)
  | infinity negative => signed negative (2047 * Nat.pow 2 52)
  | finite negative size =>
    if size.units < Nat.pow 2 52 then signed negative size.units
    else
      let e := size.units.log2 - 52
      signed negative ((e + 1) * Nat.pow 2 52 + (size.units / Nat.pow 2 e - Nat.pow 2 52))

end Binary64
end Schemata

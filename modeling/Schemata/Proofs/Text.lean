import Mathlib.Algebra.Order.Ring.Nat
import Mathlib.Data.List.Induction
import Schemata.Text

/-! Decimal digits. A number and its text determine each other, as long as no zeros stand in front,
and the length of the text tells how large the number is. Where the count of digits is fixed, zeros fill
the front, and again text and number determine each other. -/
namespace Schemata

namespace Text

theorem toNat_concat (digits : Text) (b : UInt8) :
    toNat (digits ++ [b]) = toNat digits * 10 + (b.toNat - 48) := by
  simp only [toNat, List.foldl_append, List.foldl_cons, List.foldl_nil]

theorem digitByte_toNat {d : Nat} (small : d < 10) : (UInt8.ofNat (48 + d)).toNat = 48 + d := by
  simp only [UInt8.toNat_ofNat']
  omega

theorem toNat_ofNat (n : Nat) : toNat (ofNat n) = n := by
  fun_induction ofNat n with
  | case1 n small =>
    simp only [toNat, List.foldl_cons, List.foldl_nil, digitByte_toNat small]
    omega
  | case2 n large ih =>
    rw [toNat_concat, ih, digitByte_toNat (Nat.mod_lt n (by decide))]
    omega

theorem isDigit_digitByte {d : Nat} (small : d < 10) : isDigit (UInt8.ofNat (48 + d)) = true := by
  have value := digitByte_toNat small
  simp only [isDigit, Bool.and_eq_true, decide_eq_true_eq, UInt8.le_iff_toNat_le, value]
  simp
  omega

theorem isSpace_eq_false_of_isDigit {b : UInt8} (digit : isDigit b = true) : isSpace b = false := by
  simp only [isDigit, Bool.and_eq_true, decide_eq_true_eq, UInt8.le_iff_toNat_le] at digit
  have lower : 48 ≤ b.toNat := digit.1
  have blank : b ≠ 32 := by
    rintro rfl
    exact absurd lower (by decide)
  have control : ¬ b ≤ 13 := by
    rw [UInt8.le_iff_toNat_le]
    exact Nat.not_le.mpr (Nat.lt_of_lt_of_le (by decide) lower)
  simp [isSpace, blank, control]

theorem trim_eq_self {t : Text} (solid : ∀ b ∈ t, isSpace b = false) : t.trim = t := by
  have kept {t : Text} (solid : ∀ b ∈ t, isSpace b = false) : t.dropWhile isSpace = t := by
    cases t with
    | nil => rfl
    | cons b t => rw [List.dropWhile_cons_of_neg (by simp [solid b List.mem_cons_self])]
  rw [trim, kept solid, kept fun b member => solid b (List.mem_reverse.mp member), List.reverse_reverse]

/-- What is left of a text without the blanks at its ends. -/
structure Stripped (t kept : Text) : Prop where
  blanks : ∃ front back, front.all isSpace = true ∧ back.all isSpace = true ∧
    t = front ++ (kept ++ back)
  first : ∀ b ∈ kept.head?, isSpace b = false
  last : ∀ b ∈ kept.getLast?, isSpace b = false

theorem head?_dropWhile_isSpace (t : Text) : ∀ b ∈ (t.dropWhile isSpace).head?, isSpace b = false := by
  intro b first
  have stops := List.head?_dropWhile_not isSpace t
  rw [first] at stops
  exact stops

theorem stripped_trim (t : Text) : t.Stripped t.trim := by
  have rest : t.dropWhile isSpace =
      t.trim ++ ((t.dropWhile isSpace).reverse.takeWhile isSpace).reverse := by
    rw [trim, ← List.reverse_append, List.takeWhile_append_dropWhile, List.reverse_reverse]
  constructor
  · refine ⟨t.takeWhile isSpace, ((t.dropWhile isSpace).reverse.takeWhile isSpace).reverse,
      List.all_takeWhile, ?_, ?_⟩
    · rw [List.all_reverse]
      exact List.all_takeWhile
    · rw [← rest, List.takeWhile_append_dropWhile]
  · intro b first
    refine head?_dropWhile_isSpace t b ?_
    rw [rest, List.head?_append, first]
    rfl
  · intro b last
    rw [trim, List.getLast?_reverse] at last
    exact head?_dropWhile_isSpace _ b last

theorem all_isDigit_ofNat (n : Nat) : (ofNat n).all isDigit = true := by
  fun_induction ofNat n with
  | case1 n small => simp only [List.all_cons, List.all_nil, isDigit_digitByte small, Bool.and_self]
  | case2 n large ih =>
    simp only [List.all_append, ih, List.all_cons, List.all_nil, Bool.true_and, Bool.and_true]
    exact isDigit_digitByte (Nat.mod_lt n (by decide))

theorem ofNat_ne_nil (n : Nat) : ofNat n ≠ [] := by
  rw [ofNat]
  split <;> simp

theorem length_ofNat_le {n k : Nat} (small : n < Nat.pow 10 (k + 1)) :
    (ofNat n).length ≤ k + 1 := by
  induction k generalizing n with
  | zero =>
    rw [ofNat, if_pos (by simpa using small)]
    simp
  | succ k ih =>
    rw [ofNat]
    split
    · simp
    · have split : Nat.pow 10 (k + 1 + 1) = Nat.pow 10 (k + 1) * 10 := rfl
      have rest := ih (n := n / 10) (by omega)
      simp only [List.length_append, List.length_singleton]
      omega

theorem pow_length_ofNat_le {n : Nat} (positive : 0 < n) : 10 ^ ((ofNat n).length - 1) ≤ n := by
  fun_induction ofNat n with
  | case1 n small => exact positive
  | case2 n large ih =>
    have rest := ih (by omega)
    obtain ⟨k, long⟩ := Nat.exists_eq_add_one_of_ne_zero
      (Nat.ne_of_gt (List.length_pos_iff.mpr (ofNat_ne_nil (n / 10))))
    rw [long, Nat.add_sub_cancel] at rest
    rw [List.length_append, List.length_singleton, Nat.add_sub_cancel, long, Nat.pow_succ]
    omega

theorem head?_ofNat_ne_zero {n : Nat} (large : 10 ≤ n) : (ofNat n).head? ≠ some 48 := by
  fun_induction ofNat n with
  | case1 n small => omega
  | case2 n _ ih =>
    rw [List.head?_append, Option.or_of_isSome (by simpa using ofNat_ne_nil (n / 10))]
    by_cases more : 10 ≤ n / 10
    · exact ih more
    · rw [ofNat, if_pos (by omega)]
      intro zero
      have value := digitByte_toNat (d := n / 10) (by omega)
      simp only [List.head?_cons, Option.some.injEq] at zero
      rw [zero] at value
      simp at value
      omega

theorem toNat_lt (digits : Text) (run : digits.all isDigit = true) :
    toNat digits < Nat.pow 10 digits.length := by
  have general : ∀ n, digits.foldl (fun n b => n * 10 + (b.toNat - 48)) n + 1 ≤
      (n + 1) * Nat.pow 10 digits.length := by
    induction digits with
    | nil => simp
    | cons b rest ih =>
      intro n
      simp only [List.all_cons, Bool.and_eq_true, isDigit, decide_eq_true_eq,
        UInt8.le_iff_toNat_le] at run
      have step := ih run.2 (n * 10 + (b.toNat - 48))
      have digit : b.toNat ≤ 57 := run.1.2
      have split : Nat.pow 10 (b :: rest).length = 10 * Nat.pow 10 rest.length := by
        exact Nat.mul_comm _ _
      rw [List.foldl_cons, split, ← Nat.mul_assoc]
      exact Nat.le_trans step (Nat.mul_le_mul_right _ (by omega))
  have bound := general 0
  rwa [Nat.zero_add, Nat.one_mul] at bound

theorem lt_pow_length_ofNat (n : Nat) : n < 10 ^ (ofNat n).length := by
  have bound := toNat_lt (ofNat n) (all_isDigit_ofNat n)
  rwa [toNat_ofNat, Nat.pow_eq] at bound

theorem length_ofNat {n k : Nat} (least : 10 ^ k ≤ n) (most : n < 10 ^ (k + 1)) :
    (ofNat n).length = k + 1 := by
  have positive : 0 < n := Nat.lt_of_lt_of_le (Nat.pow_pos (by decide)) least
  have long : k < (ofNat n).length :=
    (Nat.pow_lt_pow_iff_right (by decide)).mp (Nat.lt_of_le_of_lt least (lt_pow_length_ofNat n))
  have short : (ofNat n).length - 1 < k + 1 :=
    (Nat.pow_lt_pow_iff_right (by decide)).mp
      (Nat.lt_of_le_of_lt (pow_length_ofNat_le positive) most)
  omega

theorem ofNat_toNat {digits : Text} (run : digits.all isDigit = true) (ne_nil : digits ≠ [])
    (plain : digits.length = 1 ∨ digits.head? ≠ some 48) : ofNat (toNat digits) = digits := by
  -- Digits are read from the left, so the last one is split off.
  induction digits using List.reverseRecOn with
  | nil => exact absurd rfl ne_nil
  | append_singleton rest b ih =>
    rw [List.all_append, Bool.and_eq_true, List.all_cons, Bool.and_eq_true] at run
    obtain ⟨runRest, digit, _⟩ := run
    simp only [isDigit, Bool.and_eq_true, decide_eq_true_eq, UInt8.le_iff_toNat_le] at digit
    have lower : 48 ≤ b.toNat := digit.1
    have upper : b.toNat ≤ 57 := digit.2
    have last : UInt8.ofNat (48 + (b.toNat - 48)) = b := by
      rw [Nat.add_sub_cancel' lower, UInt8.ofNat_toNat]
    rw [toNat_concat, ofNat]
    by_cases single : rest = []
    · subst single
      rw [toNat, List.foldl_nil, Nat.zero_mul, Nat.zero_add, if_pos (by omega), last]
      rfl
    · have more : rest.head? ≠ some 48 := by
        rw [List.length_append, List.length_singleton, List.head?_append] at plain
        have := List.length_pos_iff.mpr single
        rcases plain with short | plain
        · omega
        · rwa [Option.or_of_isSome (by simpa using single)] at plain
      have front := ih runRest single (.inr more)
      have large : toNat rest ≠ 0 := by
        intro zero
        rw [zero] at front
        rw [← front] at more
        exact more (by rw [ofNat]; rfl)
      rw [if_neg (by omega), show (toNat rest * 10 + (b.toNat - 48)) / 10 = toNat rest by omega,
        show (toNat rest * 10 + (b.toNat - 48)) % 10 = b.toNat - 48 by omega, front, last]

section Runs

variable {run rest : Text}

/-- A run of digits is taken up to what ends it. -/
theorem takeWhile_isDigit_append (all : run.all isDigit = true)
    (ends : ∀ b ∈ rest.head?, isDigit b = false) : (run ++ rest).takeWhile isDigit = run := by
  rw [List.takeWhile_append_of_pos (List.all_eq_true.mp all)]
  cases rest with
  | nil => exact List.append_nil run
  | cons b t => simp [ends b rfl]

theorem dropWhile_isDigit_append (all : run.all isDigit = true)
    (ends : ∀ b ∈ rest.head?, isDigit b = false) : (run ++ rest).dropWhile isDigit = rest := by
  rw [List.dropWhile_append_of_pos (List.all_eq_true.mp all)]
  cases rest with
  | nil => rfl
  | cons b t => simp [ends b rfl]

end Runs

section Padding

theorem toNat_zeros (n : Nat) (t : Text) : toNat (List.replicate n 48 ++ t) = toNat t := by
  induction n with
  | zero => rfl
  | succ n ih => exact ih

theorem all_isDigit_zeros (n : Nat) : (List.replicate n (48 : UInt8)).all isDigit = true := by
  rw [List.all_replicate]
  split <;> decide

theorem all_isDigit_take {t : Text} (all : t.all isDigit = true) (n : Nat) :
    (t.take n).all isDigit = true :=
  List.all_eq_true.mpr fun b member => List.all_eq_true.mp all b (List.mem_of_mem_take member)

theorem all_isDigit_drop {t : Text} (all : t.all isDigit = true) (n : Nat) :
    (t.drop n).all isDigit = true :=
  List.all_eq_true.mpr fun b member => List.all_eq_true.mp all b (List.mem_of_mem_drop member)

theorem toNat_padZeros (width : Nat) (t : Text) : toNat (padZeros width t) = toNat t :=
  toNat_zeros _ t

theorem all_isDigit_padZeros (width : Nat) {t : Text} (all : t.all isDigit = true) :
    (padZeros width t).all isDigit = true := by
  rw [padZeros, List.all_append, all_isDigit_zeros, all]
  rfl

theorem padZeros_ne_nil (width : Nat) {t : Text} (some : t ≠ []) : padZeros width t ≠ [] :=
  List.append_ne_nil_of_right_ne_nil _ some

theorem length_padZeros {width n : Nat} (positive : 0 < width) (small : n < 10 ^ width) :
    (padZeros width (ofNat n)).length = width := by
  obtain ⟨k, rfl⟩ := Nat.exists_eq_add_one_of_ne_zero (Nat.ne_of_gt positive)
  have short : (ofNat n).length ≤ k + 1 := length_ofNat_le small
  rw [padZeros, List.length_append, List.length_replicate]
  omega

theorem toNat_append (front back : Text) :
    toNat (front ++ back) = toNat front * 10 ^ back.length + toNat back := by
  induction back using List.reverseRecOn with
  | nil => simp [toNat]
  | append_singleton back b ih =>
    rw [← List.append_assoc, toNat_concat, toNat_concat, ih, List.length_append,
      List.length_singleton, Nat.pow_succ, Nat.add_mul, Nat.mul_assoc, Nat.add_assoc]

/-- Among digits of one length no two runs denote the same number. -/
theorem eq_of_toNat_eq {digits others : Text} (run : digits.all isDigit = true)
    (run' : others.all isDigit = true) (long : digits.length = others.length)
    (same : toNat digits = toNat others) : digits = others := by
  induction digits using List.reverseRecOn generalizing others with
  | nil => exact (List.length_eq_zero_iff.mp long.symm).symm
  | append_singleton front b ih =>
    rcases List.eq_nil_or_concat others with rfl | ⟨front', b', rfl⟩
    · simp at long
    · rw [List.concat_eq_append] at *
      rw [List.all_append, Bool.and_eq_true, List.all_cons, Bool.and_eq_true] at run run'
      obtain ⟨runFront, digit, _⟩ := run
      obtain ⟨runFront', digit', _⟩ := run'
      simp only [isDigit, Bool.and_eq_true, decide_eq_true_eq, UInt8.le_iff_toNat_le,
        UInt8.reduceToNat] at digit digit'
      rw [toNat_concat, toNat_concat] at same
      rw [List.length_append, List.length_append, List.length_singleton, List.length_singleton]
        at long
      have last : b.toNat = b'.toNat := by omega
      rw [ih runFront runFront' (by omega) (by omega), UInt8.toNat_inj.mp last]

/-- A number of a fixed count of digits is read where that many digits stand. -/
theorem takeDigits?_eq_some_iff {width value : Nat} {t rest : Text} (positive : 0 < width) :
    takeDigits? width t = some (value, rest) ↔
      value < 10 ^ width ∧ t = padZeros width (ofNat value) ++ rest := by
  unfold takeDigits?
  constructor
  · intro read
    split at read
    · rename_i there
      cases read
      simp only [Bool.and_eq_true, decide_eq_true_eq] at there
      have taken : (t.take width).length = width := List.length_take_of_le there.1
      have small := toNat_lt _ there.2
      rw [taken] at small
      refine ⟨small, ?_⟩
      have filled : t.take width = padZeros width (ofNat (toNat (t.take width))) := by
        refine eq_of_toNat_eq there.2 (all_isDigit_padZeros _ (all_isDigit_ofNat _)) ?_ ?_
        · rw [taken, length_padZeros positive small]
        · rw [toNat_padZeros, toNat_ofNat]
      rw [← filled, List.take_append_drop]
    · cases read
  · rintro ⟨small, rfl⟩
    have long := length_padZeros positive small
    have taken : (padZeros width (ofNat value) ++ rest).take width = padZeros width (ofNat value) :=
      List.take_left' long
    have digits := all_isDigit_padZeros width (all_isDigit_ofNat value)
    rw [taken, List.drop_left' long, toNat_padZeros, toNat_ofNat, digits, List.length_append, long,
      decide_eq_true (Nat.le_add_right _ _)]
    rfl

end Padding

end Text

end Schemata

import Mathlib.Data.Nat.Digits.Defs
import Schemata.Proofs.Number.Integers
import Schemata.Proofs.Value.Numeral

/-! Literals in base 16, 8 and 2. Their digits are summed up in binary64, rounded after each digit. Up to
2^53 no rounding loses anything. From the first digits on that make 2^53 or more, each further digit is
lost and only its place counts. So the double that comes out is nearest to the number with zeros for these
digits; it is nearest to the literal's own number, too, unless the digits in front lie half way between
two doubles, the lower one of which is even, and the lost digits would have told it. -/
namespace Schemata

namespace Value

variable {base k : Nat} {digits lead rest : Text} {b letter : UInt8}

/-- The number that digits denote in a base, the last digit being the ones. -/
def baseNumber (base : Nat) (digits : Text) : Nat := Nat.ofDigits base (digits.reverse.map digitValue)

theorem baseNumber_nil (base : Nat) : baseNumber base [] = 0 := rfl

theorem baseNumber_append (base : Nat) (lead rest : Text) :
    baseNumber base (lead ++ rest) = baseNumber base lead * base ^ rest.length + baseNumber base rest := by
  rw [baseNumber, List.reverse_append, List.map_append, Nat.ofDigits_append, List.length_map,
    List.length_reverse, Nat.add_comm, Nat.mul_comm]
  rfl

theorem baseNumber_concat (base : Nat) (lead : Text) (b : UInt8) :
    baseNumber base (lead ++ [b]) = baseNumber base lead * base + digitValue b := by
  have one : baseNumber base [b] = digitValue b := Nat.ofDigits_singleton
  rw [baseNumber_append, List.length_singleton, Nat.pow_one, one]

/-- More digits denote no less. -/
theorem baseNumber_mono (positive : 0 < base) (front : lead <+: digits) :
    baseNumber base lead ≤ baseNumber base digits := by
  obtain ⟨rest, rfl⟩ := front
  rw [baseNumber_append]
  exact Nat.le_add_right_of_le (Nat.le_mul_of_pos_right _ (Nat.pow_pos positive))

theorem digitValue_lt (digit : isDigitOf base b = true) : digitValue b < base := by
  rw [isDigitOf, Bool.and_eq_true, decide_eq_true_eq] at digit
  exact digit.2

theorem baseNumber_lt (more : 1 < base) (legal : digits.all (isDigitOf base) = true) :
    baseNumber base digits < base ^ digits.length := by
  have bound := Nat.ofDigits_lt_base_pow_length more (l := digits.reverse.map digitValue) (by
    intro value member
    obtain ⟨b, listed, rfl⟩ := List.mem_map.mp member
    exact digitValue_lt (List.all_eq_true.mp legal b (List.mem_reverse.mp listed)))
  rwa [List.length_map, List.length_reverse] at bound

/-- The first digits that denote 2^53 or more, and the others. -/
structure Leading (base : Nat) (digits lead rest : Text) : Prop where
  split : digits = lead ++ rest
  reached : 2 ^ 53 ≤ baseNumber base lead
  first : baseNumber base lead.dropLast < 2 ^ 53

theorem exists_leading (large : 2 ^ 53 ≤ baseNumber base digits) :
    ∃ lead rest, Leading base digits lead rest := by
  induction digits using List.reverseRecOn with
  | nil => exact absurd large (Nat.not_le.mpr (Nat.two_pow_pos 53))
  | append_singleton digits b ih =>
    by_cases reached : 2 ^ 53 ≤ baseNumber base digits
    · obtain ⟨lead, rest, leading⟩ := ih reached
      exact ⟨lead, rest ++ [b], by rw [leading.split, List.append_assoc], leading.reached, leading.first⟩
    · refine ⟨digits ++ [b], [], (List.append_nil _).symm, large, ?_⟩
      rw [List.dropLast_concat]
      exact Nat.not_le.mp reached

theorem Leading.front (leading : Leading base digits lead rest) : lead <+: digits :=
  ⟨rest, leading.split.symm⟩

/-- No shorter digits in front denote as much. -/
theorem Leading.length_le (positive : 0 < base) (leading : Leading base digits lead rest)
    {front : Text} (inside : front <+: digits) (reached : 2 ^ 53 ≤ baseNumber base front) :
    lead.length ≤ front.length := by
  by_contra shorter
  have short : lead.dropLast <+: digits := (List.dropLast_prefix lead).trans leading.front
  have before : front <+: lead.dropLast :=
    List.prefix_of_prefix_length_le inside short (by rw [List.length_dropLast]; omega)
  exact absurd reached (Nat.not_le.mpr ((baseNumber_mono positive before).trans_lt leading.first))

theorem Leading.unique (positive : 0 < base) {lead' rest' : Text}
    (one : Leading base digits lead rest) (other : Leading base digits lead' rest') :
    lead = lead' ∧ rest = rest' := by
  have before : lead <+: lead' := List.prefix_of_prefix_length_le one.front other.front
    (one.length_le positive other.front other.reached)
  have same : lead = lead' :=
    before.eq_of_length_le (other.length_le positive one.front one.reached)
  refine ⟨same, ?_⟩
  have texts := one.split.symm.trans other.split
  rwa [same, List.append_cancel_left_eq] at texts

section Summing

/-- One more digit, with the two roundings. -/
def sumDigit (base : Nat) (sum : Binary64) (b : UInt8) : Binary64 :=
  (sum.mul (.ofInt base)).add (.ofInt (digitValue b))

theorem ofBaseDigits_eq (base : Nat) (digits : Text) : ofBaseDigits base digits =
    if (digits.foldl (sumDigit base) (0 : Binary64)).le Binary64.maxSafeInteger
    then int (digits.foldl (sumDigit base) (0 : Binary64)).toInt64
    else double (digits.foldl (sumDigit base) (0 : Binary64)) := rfl

theorem zero_eq : (0 : Binary64) = .ofInt 0 := rfl

variable (short : k < 53)

include short

theorem sumDigit_ofInt (n : Nat) (digit : isDigitOf (2 ^ k) b = true) : sumDigit (2 ^ k) (.ofInt n) b =
    .ofInt ((n * 2 ^ k + if n < 2 ^ 53 then digitValue b else 0 : Nat) : Int) :=
  Binary64.ofInt_digit n short (digitValue_lt digit)

/-- As long as all digits but the last denote less than 2^53, the sum is rounded once. -/
theorem sum_exact (legal : lead.all (isDigitOf (2 ^ k)) = true)
    (first : baseNumber (2 ^ k) lead.dropLast < 2 ^ 53) :
    lead.foldl (sumDigit (2 ^ k)) 0 = .ofInt (baseNumber (2 ^ k) lead) := by
  induction lead using List.reverseRecOn with
  | nil => rw [baseNumber_nil, List.foldl_nil, Int.ofNat_zero, zero_eq]
  | append_singleton front b ih =>
    rw [List.dropLast_concat] at first
    rw [List.all_append, Bool.and_eq_true, List.all_cons, Bool.and_eq_true] at legal
    have before := (baseNumber_mono (Nat.two_pow_pos k) (List.dropLast_prefix front)).trans_lt first
    rw [List.foldl_append, ih legal.1 before, List.foldl_cons, List.foldl_nil,
      sumDigit_ofInt short _ legal.2.1, if_pos first, baseNumber_concat]

/-- Behind 2^53 every digit is lost. -/
theorem sum_lost (legal : rest.all (isDigitOf (2 ^ k)) = true) {n : Nat} (large : 2 ^ 53 ≤ n) :
    rest.foldl (sumDigit (2 ^ k)) (.ofInt n) = .ofInt ((n * (2 ^ k) ^ rest.length : Nat) : Int) := by
  induction rest generalizing n with
  | nil => rw [List.length_nil, Nat.pow_zero, Nat.mul_one, List.foldl_nil]
  | cons b rest ih =>
    rw [List.all_cons, Bool.and_eq_true] at legal
    have next : 2 ^ 53 ≤ n * 2 ^ k :=
      large.trans (Nat.le_mul_of_pos_right n (Nat.two_pow_pos k))
    rw [List.foldl_cons, sumDigit_ofInt short n legal.1, if_neg (Nat.not_lt.mpr large), Nat.add_zero,
      ih legal.2 next, List.length_cons, Nat.pow_succ', Nat.mul_assoc]

/-- What the digits are summed up to. -/
theorem sum_leading (legal : digits.all (isDigitOf (2 ^ k)) = true)
    (leading : Leading (2 ^ k) digits lead rest) : digits.foldl (sumDigit (2 ^ k)) 0 =
      .ofInt ((baseNumber (2 ^ k) lead * (2 ^ k) ^ rest.length : Nat) : Int) := by
  rw [leading.split, List.all_append, Bool.and_eq_true] at legal
  rw [leading.split, List.foldl_append, sum_exact short legal.1 leading.first,
    sum_lost short legal.2 leading.reached]

end Summing

section Reading

theorem lt_of_isSpace (blank : Text.isSpace b = true) : b < 65 := by
  rw [Text.isSpace, Bool.or_eq_true, beq_iff_eq, Bool.and_eq_true, decide_eq_true_eq,
    decide_eq_true_eq] at blank
  rcases blank with rfl | ⟨_, small⟩
  · decide
  · exact UInt8.lt_of_le_of_lt small (by decide)

theorem isSpace_eq_false_of_isDigitOf (digit : isDigitOf base b = true) : Text.isSpace b = false := by
  rw [isDigitOf, Bool.and_eq_true, Bool.or_eq_true] at digit
  rcases digit.1 with plain | letter
  · exact Text.isSpace_eq_false_of_isDigit plain
  · rw [Bool.eq_false_iff]
    intro blank
    have low := lt_of_isSpace blank
    rw [Text.lowerByte_of_lt low, Bool.and_eq_true, decide_eq_true_eq] at letter
    exact absurd (UInt8.lt_of_le_of_lt letter.1 low) (by decide)

theorem isSpace_eq_false_of_baseOfLetter? (known : baseOfLetter? letter = some base) :
    Text.isSpace letter = false := by
  rw [Bool.eq_false_iff]
  intro blank
  rw [baseOfLetter?_of_lt (lt_of_isSpace blank)] at known
  cases known

/-- The bases are powers of two. -/
theorem exists_two_pow (known : baseOfLetter? letter = some base) :
    ∃ k, 0 < k ∧ k < 53 ∧ base = 2 ^ k := by
  unfold baseOfLetter? at known
  split_ifs at known
  · exact ⟨4, by decide, by decide, (Option.some.inj known).symm⟩
  · exact ⟨3, by decide, by decide, (Option.some.inj known).symm⟩
  · exact ⟨1, by decide, by decide, (Option.some.inj known).symm⟩

theorem baseLiteral?_eq_some_iff {t : Text} : baseLiteral? t = some (base, digits) ↔
    ∃ letter, t = 48 :: letter :: digits ∧ baseOfLetter? letter = some base ∧ digits ≠ [] ∧
      digits.all (isDigitOf base) = true := by
  constructor
  · intro read
    unfold baseLiteral? at read
    split at read
    · rename_i letter run
      split at read
      · rename_i base' known
        split_ifs at read with legal
        cases read
        rw [Bool.and_eq_true, Bool.not_eq_true', List.isEmpty_eq_false_iff] at legal
        exact ⟨letter, rfl, known, legal⟩
      · cases read
    · cases read
  · rintro ⟨letter, rfl, known, filled, legal⟩
    rw [baseLiteral?, known]
    simp only [legal, List.isEmpty_eq_false_iff.mpr filled, Bool.not_false, Bool.and_self, if_true]

/-- A literal is taken for the sum of its digits. -/
theorem ofNumeral_baseLiteral {t : Text} (read : baseLiteral? t = some (base, digits)) :
    ofNumeral t = ofBaseDigits base digits := by
  obtain ⟨letter, rfl, _⟩ := baseLiteral?_eq_some_iff.mp read
  have word : 48 :: letter :: digits ≠ Text.ofString "Infinity" := by
    intro same
    have first := congrArg List.head? same
    cases first
  unfold ofNumeral
  have plain : splitSign (48 :: letter :: digits) = (false, 48 :: letter :: digits) := rfl
  simp only [plain, read, if_neg word, if_neg (List.cons_ne_nil 48 (letter :: digits))]

end Reading

section Literal

variable (known : baseOfLetter? letter = some base) (legal : digits.all (isDigitOf base) = true)

include known legal

/-- Digits that denote less than 2^53 are an integer. -/
theorem ofBaseDigits_small (small : baseNumber base digits < 2 ^ 53) :
    ∃ n : Int64, ofBaseDigits base digits = int n ∧ n.toInt = baseNumber base digits := by
  rw [ofBaseDigits_eq]
  obtain ⟨k, _, short, rfl⟩ := exists_two_pow known
  have front := (baseNumber_mono (Nat.two_pow_pos k) (List.dropLast_prefix digits)).trans_lt small
  rw [sum_exact short legal front,
    if_pos ((Binary64.ofInt_le_maxSafeInteger_iff _).mpr (by exact_mod_cast small))]
  exact ⟨_, rfl, Binary64.toInt64_ofInt small.le⟩

/-- Other digits are the double of the first of them, with zeros in the places of the others. -/
theorem ofBaseDigits_large (leading : Leading base digits lead rest) : ofBaseDigits base digits =
    double (.ofInt ((baseNumber base lead * base ^ rest.length : Nat) : Int)) := by
  rw [ofBaseDigits_eq]
  obtain ⟨k, _, short, rfl⟩ := exists_two_pow known
  have more : 2 ^ 53 ≤ baseNumber (2 ^ k) lead * (2 ^ k) ^ rest.length :=
    leading.reached.trans (Nat.le_mul_of_pos_right _ (Nat.pow_pos (Nat.two_pow_pos k)))
  have beyond : ¬ ((baseNumber (2 ^ k) lead * (2 ^ k) ^ rest.length : Nat) : Int) < 2 ^ 53 :=
    Int.not_lt.mpr (by exact_mod_cast more)
  rw [sum_leading short legal leading,
    if_neg fun le => beyond ((Binary64.ofInt_le_maxSafeInteger_iff _).mp le)]

/-- That double is nearest to the literal's own number, too, unless the lost digits tell a tie. -/
theorem nearest_of_leading (leading : Leading base digits lead rest) :
    (Binary64.ofInt ((baseNumber base lead * base ^ rest.length : Nat) : Int)).Nearest
        (baseNumber base digits) ↔
      ¬ (TiesDown (baseNumber base lead) ∧ baseNumber base rest ≠ 0 ∧
        (Binary64.ofInt ((baseNumber base lead * base ^ rest.length : Nat) : Int)).isFinite = true) := by
  obtain ⟨k, some, _, rfl⟩ := exists_two_pow known
  have inside : baseNumber (2 ^ k) rest < 2 ^ (k * rest.length) := by
    rw [leading.split, List.all_append, Bool.and_eq_true] at legal
    rw [Nat.pow_mul]
    exact baseNumber_lt (Nat.one_lt_two_pow some.ne') legal.2
  rw [Binary64.nearest_ofInt_iff, leading.split, baseNumber_append, ← Nat.pow_mul]
  exact Binary64.ofInt_mul_eq_iff leading.reached inside

theorem toNumber_literal (filled : digits ≠ []) :
    toNumber (string (48 :: letter :: digits)) = ofBaseDigits base digits := by
  have solid : ∀ b ∈ 48 :: letter :: digits, Text.isSpace b = false := by
    refine List.forall_mem_cons.mpr ⟨by decide, List.forall_mem_cons.mpr ⟨?_, fun b member => ?_⟩⟩
    · exact isSpace_eq_false_of_baseOfLetter? known
    · exact isSpace_eq_false_of_isDigitOf (List.all_eq_true.mp legal b member)
  rw [toNumber, Text.trim_eq_self solid]
  exact ofNumeral_baseLiteral (baseLiteral?_eq_some_iff.mpr ⟨letter, rfl, known, filled, legal⟩)

/-- A literal in base 16, 8 or 2 is the integer that it denotes, below 2^53, and otherwise a double: the one
nearest to the number that the first digits of 2^53 or more denote, with a zero in the place of every
other digit. That is the double nearest to the literal's own number exactly if the first digits do not lie
half way between two doubles, the lower one of which is even, with other digits than zeros behind them. -/
theorem toNumber_literal_nearest (filled : digits ≠ []) :
    (baseNumber base digits < 2 ^ 53 → ∃ n : Int64,
      toNumber (string (48 :: letter :: digits)) = int n ∧ n.toInt = baseNumber base digits) ∧
    (2 ^ 53 ≤ baseNumber base digits → ∃ lead rest x, Leading base digits lead rest ∧
      toNumber (string (48 :: letter :: digits)) = double x ∧
      x.Nearest (baseNumber base lead * base ^ rest.length) ∧
      (x.Nearest (baseNumber base digits) ↔
        ¬ (TiesDown (baseNumber base lead) ∧ baseNumber base rest ≠ 0 ∧ x.isFinite = true))) := by
  rw [toNumber_literal known legal filled]
  refine ⟨ofBaseDigits_small known legal, fun large => ?_⟩
  obtain ⟨lead, rest, leading⟩ := exists_leading large
  refine ⟨lead, rest, _, leading, ofBaseDigits_large known legal leading, ?_,
    nearest_of_leading known legal leading⟩
  exact_mod_cast Binary64.nearest_ofInt _

end Literal

/-- A literal on each side of 2^53. The first fourteen digits of the second make 2^53 + 3, half way between
2^53 + 2 and 2^53 + 4, and the upper one is even, so that the last digit tells nothing new. -/
theorem toNumber_literal_nearest_halfway :
    (∃ n : Int64, toNumber (string (Text.ofString "0x1F")) = int n ∧ n.toInt = 31) ∧
    ∃ x, toNumber (string (Text.ofString "0x200000000000031")) = double x ∧
      x.Nearest (2 ^ 57 + 49 : Nat) := by
  have known : baseOfLetter? 120 = some 16 := by decide
  constructor
  · have filled : ([49, 70] : Text) ≠ [] := List.cons_ne_nil _ _
    obtain ⟨small, _⟩ := toNumber_literal_nearest known (by decide) filled
    exact small (by decide)
  · have value : baseNumber 16 (Text.ofString "200000000000031") = 2 ^ 57 + 49 := by decide +kernel
    have first : Leading 16 (Text.ofString "200000000000031") (Text.ofString "20000000000003") [49] :=
      ⟨by decide, by decide +kernel, by decide +kernel⟩
    have legal : (Text.ofString "200000000000031").all (isDigitOf 16) = true := by decide
    obtain ⟨_, large⟩ := toNumber_literal_nearest known legal (by decide)
    obtain ⟨lead, rest, x, leading, read, _, near⟩ := large (by rw [value]; decide)
    obtain ⟨rfl, rfl⟩ := first.unique (by decide) leading
    have upwards : ¬ TiesDown (baseNumber 16 (Text.ofString "20000000000003")) := by decide +kernel
    rw [value] at near
    exact ⟨x, read, near.mpr fun lost => upwards lost.1⟩

/-- The first fourteen digits make 2^53 + 1, half way between 2^53 and 2^53 + 2. The last digit would tell
that 2^57 + 32 is nearest to 2^57 + 17, but the sum stays at 2^57. -/
theorem toNumber_literal_rounded_down :
    baseNumber 16 (Text.ofString "200000000000011") = 2 ^ 57 + 17 ∧
    ∃ x, toNumber (string (Text.ofString "0x200000000000011")) = double x ∧
      ¬ x.Nearest (2 ^ 57 + 17 : Nat) := by
  have value : baseNumber 16 (Text.ofString "200000000000011") = 2 ^ 57 + 17 := by decide +kernel
  have known : baseOfLetter? 120 = some 16 := by decide
  have legal : (Text.ofString "200000000000011").all (isDigitOf 16) = true := by decide
  have leading : Leading 16 (Text.ofString "200000000000011") (Text.ofString "20000000000001") [49] :=
    ⟨by decide, by decide +kernel, by decide +kernel⟩
  have read : toNumber (string (Text.ofString "0x200000000000011")) = _ :=
    toNumber_literal known legal (by decide)
  refine ⟨value, _, read.trans (ofBaseDigits_large known legal leading), ?_⟩
  rw [← value, nearest_of_leading known legal leading, not_not]
  exact ⟨by decide +kernel, by decide, by decide +kernel⟩

end Value
end Schemata

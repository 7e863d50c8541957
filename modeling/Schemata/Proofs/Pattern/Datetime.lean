import Schemata.Constraint.Basic
import Schemata.Proofs.Pattern.Source
import Schemata.Proofs.Regex.Search
import Schemata.Proofs.Timestamp.RoundTrip

/-! Written instants meet the patterns for date-times. A pattern is found in the texts of its language: a
date with a time of day, a fraction and a zone. What is written has the date and the time of day in as
many bytes as the pattern, so its point, three digits and final letter have to be the fraction and the
zone; a fraction of another length does not reach the letter, or goes past it. -/
namespace Schemata.Pattern

namespace Datetime

open Regex Timestamp

variable {n : Nat} {t : Text} {fractionDigits : FractionDigits} {offset : Bool}

section Languages

theorem mem_digits : t ∈ (digits n).language ↔ Digits n t := by
  rw [digits, language_repeated, mem_language_byte_pow, Digits]

theorem mem_byte {b : UInt8} : t ∈ (byte b).language ↔ t = [b] := by
  simp [byte, mem_language_byte, ByteSet.single]

theorem mem_stem_iff : t ∈ (Regex.sequence stem).language ↔ ∃ year month day hour minute second,
    Digits 4 year ∧ Digits 2 month ∧ Digits 2 day ∧ Digits 2 hour ∧ Digits 2 minute ∧
      Digits 2 second ∧ t = year ++ 45 :: (month ++ 45 :: (day ++ 84 :: (hour ++ 58 :: (minute ++
        58 :: second)))) := by
  simp only [language_sequence, stem, List.map_cons, List.map_nil, List.prod_cons, List.prod_nil,
    mul_one, Language.mem_mul, mem_digits, mem_byte]
  simp [eq_comm (b := t), and_assoc]

theorem length_stem (front : t ∈ (Regex.sequence stem).language) : t.length = 19 := by
  obtain ⟨year, month, day, hour, minute, second, y, m, d, h, i, s, rfl⟩ := mem_stem_iff.mp front
  simp [y.1, m.1, d.1, h.1, i.1, s.1]

theorem mem_fraction_any (run : Digits 3 t) :
    46 :: t ∈ (Regex.sequence (fraction .any)).language := by
  have more : t ∈ (plus false (.byte Text.isDigit)).language := by
    have three := mem_digits.mpr run
    rw [digits, language_repeated, pow_succ', Language.mem_mul] at three
    obtain ⟨first, taken, others, rest, rfl⟩ := three
    exact Language.append_mem_mul taken (pow_le_kstar (a := (Regex.byte _).language) rest)
  simp only [fraction, language_sequence, List.map_cons, List.map_nil, List.prod_cons,
    List.prod_nil, language_seq, language_optional, language_group, language_empty, mul_one]
  exact .inr (Language.append_mem_mul (mem_byte.mpr rfl) more)

theorem mem_fraction_exactly {n : Int} : t ∈ (Regex.sequence (fraction (.exactly n))).language ↔
    if 0 < n then ∃ run, Digits n.toNat run ∧ t = 46 :: run else t = [] := by
  rw [fraction]
  split
  · simp [language_sequence, Language.mem_mul, mem_byte, mem_digits, eq_comm (b := t)]
  · exact Language.mem_one t

theorem mem_zone_iff {captures : Nat} : t ∈ (Regex.sequence (zone captures offset)).language ↔
    t = [90] ∨ (offset = true ∧ ∃ b hours minutes, sign b = true ∧ Digits 2 hours ∧
      Digits 2 minutes ∧ t = b :: (hours ++ 58 :: minutes)) := by
  cases offset with
  | false => simp [zone, language_sequence, mem_byte]
  | true =>
    simp [zone, language_sequence, mem_byte, Language.mem_add, Language.mem_mul,
      mem_language_byte, mem_digits, eq_comm (b := t), or_comm]

/-- A zone goes on neither with a digit nor with a point. -/
theorem zone_starts {captures : Nat} (last : t ∈ (Regex.sequence (zone captures offset)).language) :
    ∀ b ∈ t.head?, Text.isDigit b = false ∧ b ≠ 46 := by
  rcases mem_zone_iff.mp last with rfl | ⟨_, b, hours, minutes, signed, _, _, rfl⟩
  · rintro _ ⟨⟩
    decide
  · rintro _ ⟨⟩
    have either : b = 43 ∨ b = 45 := by simpa [sign, ByteSet.union, ByteSet.single] using signed
    rcases either with rfl | rfl <;> decide

theorem plain_digits (n : Nat) : (digits n).Plain := (Plain.byte _).repeated false n

theorem plain_byte (b : UInt8) : (byte b).Plain := .byte _

theorem plain_fraction : ∀ term ∈ fraction fractionDigits, term.Plain := by
  cases fractionDigits with
  | any =>
    have digit : [] ∉ (Regex.byte Text.isDigit).language := by simp [mem_language_byte]
    have point :
        [] ∉ (group 1 (Regex.sequence [byte 46, plus false (.byte Text.isDigit)])).language := by
      simp [language_sequence, Language.mem_mul, mem_byte]
    have parts : ∀ term ∈ [byte 46, plus false (.byte Text.isDigit)], term.Plain := by
      simp [plain_byte, Plain.plus false (.byte _) digit]
    exact List.forall_mem_singleton.mpr
      (.seq (.optional false (.group 1 (.sequence parts)) point) .empty)
  | exactly n =>
    rw [fraction]
    split <;> simp [plain_byte, plain_digits]

theorem plain_zone {captures : Nat} : ∀ term ∈ zone captures offset, term.Plain := by
  cases offset with
  | true =>
    refine List.forall_mem_singleton.mpr (.group captures (.alt (.sequence ?_) (.sequence ?_)))
    · refine List.forall_mem_singleton.mpr (.group _ (.sequence ?_))
      simp [plain_byte, plain_digits, Plain.byte]
    · simp [plain_byte]
  | false => simp [zone, plain_byte]

theorem plain_terms : ∀ term ∈ terms fractionDigits offset, term.Plain := by
  have stem : ∀ term ∈ stem, term.Plain := by simp [stem, plain_digits, plain_byte]
  simp only [terms, List.forall_mem_append]
  exact ⟨⟨stem, plain_fraction⟩, plain_zone⟩

/-- The texts that a pattern for date-times is found in. -/
theorem search_expression_iff : search false (expression fractionDigits offset) t = true ↔
    ∃ front ∈ (Regex.sequence stem).language,
      ∃ middle ∈ (Regex.sequence (fraction fractionDigits)).language,
      ∃ last ∈ (Regex.sequence (zone (captures fractionDigits) offset)).language,
        front ++ (middle ++ last) = t := by
  rw [expression, search_anchored_iff plain_terms, terms, language_sequence, List.map_append,
    List.map_append, List.prod_append, List.prod_append, ← language_sequence, ← language_sequence,
    ← language_sequence, mul_assoc]
  simp only [Language.mem_mul, exists_exists_and_exists_and_eq_and]

end Languages

section Written

theorem exists_front (form : Canonical t) : ∃ front ∈ (Regex.sequence stem).language, ∃ millis,
    Digits 3 millis ∧ t = front ++ 46 :: (millis ++ [90]) := by
  cases form with
  | intro year month day hour minute second millis =>
    refine ⟨_, mem_stem_iff.mpr ⟨_, _, _, _, _, _, year, month, day, hour, minute, second, rfl⟩,
      _, millis, ?_⟩
    simp

theorem search_of_canonical (form : Canonical t)
    (fits : fractionDigits = .any ∨ fractionDigits = .exactly 3) :
    search false (expression fractionDigits offset) t = true := by
  obtain ⟨front, taken, millis, three, rfl⟩ := exists_front form
  refine search_expression_iff.mpr
    ⟨front, taken, 46 :: millis, ?_, [90], mem_zone_iff.mpr (.inl rfl), rfl⟩
  rcases fits with rfl | rfl
  · exact mem_fraction_any three
  · exact mem_fraction_exactly.mpr ⟨millis, three, rfl⟩

theorem search_of_canonical_ne (form : Canonical t) {n : Int} (other : n ≠ 3) :
    search false (expression (.exactly n) offset) t = false := by
  obtain ⟨front, taken, millis, three, rfl⟩ := exists_front form
  refine Bool.eq_false_iff.mpr fun found => ?_
  obtain ⟨front', taken', middle, between, last, ends, same⟩ := search_expression_iff.mp found
  have rest : middle ++ last = 46 :: (millis ++ [90]) :=
    List.append_inj_right same ((length_stem taken').trans (length_stem taken).symm)
  have between := mem_fraction_exactly.mp between
  split at between
  · obtain ⟨run, digits, rfl⟩ := between
    have letter : ∀ b ∈ ([90] : Text).head?, Text.isDigit b = false := by
      rintro _ ⟨⟩
      decide
    -- Both fractions are the digits up to the first byte that is none.
    have whole := Text.takeWhile_isDigit_append digits.2 fun b first => (zone_starts ends b first).1
    rw [show run ++ last = millis ++ [90] from (List.cons.inj rest).2,
      Text.takeWhile_isDigit_append three.2 letter] at whole
    have long := digits.1
    rw [← whole, three.1] at long
    omega
  · subst between
    exact (zone_starts ends 46 (by rw [← List.nil_append last, rest]; rfl)).2 rfl

end Written

section Constraints

variable {p : Pattern} {e : Regex} {message : Text}

theorem register_pattern (compiled : p.compile = .ok e) (message : Text) :
    ∃ c, (Constraint.ofKind .string).register (.pattern p) message = .ok c ∧ ∀ t,
      c.violations (.string t) = .ok (if e.search p.ignoreCase t then [] else
        [if message.isEmpty then Check.message (.string t) (.pattern p e) else message]) := by
  refine ⟨_, by rw [Constraint.register, Constraint.checkOf, compiled]; rfl, fun t => ?_⟩
  change Constraint.ruleViolations (.string t) [⟨.pattern p e, message⟩] = _
  have accepts : (Check.pattern p e).accepts (.string t) = .ok (e.search p.ignoreCase t) := rfl
  rw [Constraint.ruleViolations, Rule.violation?, accepts]
  cases e.search p.ignoreCase t <;> rfl

theorem compile_of_register {c : Constraint}
    (registered : (Constraint.ofKind .string).register (.pattern p) message = .ok c) :
    ∃ e, p.compile = .ok e := by
  cases compiled : p.compile with
  | ok e => exact ⟨e, rfl⟩
  | error fault =>
    rw [Constraint.register, Constraint.checkOf, compiled] at registered
    cases registered

end Constraints

end Datetime

open Datetime

/-- What is written of an instant in the years 0 to 9999 meets the patterns for date-times with any
fraction and with one of three digits, whether they admit offsets or not. One of any other number of
digits, if it compiles, turns it down. -/
theorem datetime_format (x : Binary64) (place : Int) (finite : x.isFinite = true)
    (there : x.place? = some place) (low : -62167219200000 * Binary64.unitsPerOne ≤ place)
    (high : place < 253402300800000 * Binary64.unitsPerOne) (offset : Bool) (message : Text) :
    (∀ digits, digits = .any ∨ digits = .exactly 3 → ∃ c,
      (Constraint.ofKind .string).register (.pattern (datetime digits offset)) message = .ok c ∧
        c.violations (.string (Timestamp.format x)) = .ok []) ∧
    ∀ (n : Int) c, n ≠ 3 →
      (Constraint.ofKind .string).register (.pattern (datetime (.exactly n) offset)) message = .ok c →
        c.violations (.string (Timestamp.format x)) = .ok [if message.isEmpty then
          Text.ofString "Expect the string to match the corresponding pattern " ++
            (datetime (.exactly n) offset).source else message] := by
  have form := Timestamp.canonical_format finite there low high
  constructor
  · intro digits fits
    have compiled : (datetime digits offset).compile = .ok (expression digits offset) := by
      rcases fits with rfl | rfl
      · exact compile_any offset
      · rw [show (3 : Int) = (3 : Nat) from rfl, compile_exactly (by decide)]
        cases offset <;> rfl
    obtain ⟨c, registered, judges⟩ := register_pattern compiled message
    refine ⟨c, registered, ?_⟩
    rw [judges]
    exact congrArg _ (if_pos (search_of_canonical form fits))
  · intro n c other registered
    obtain ⟨e, compiled⟩ := compile_of_register registered
    obtain rfl := eq_expression compiled
    obtain ⟨c', registered', judges⟩ := register_pattern compiled message
    obtain rfl : c = c' := Except.ok.inj (registered.symm.trans registered')
    rw [judges]
    exact congrArg _ (if_neg (Bool.eq_false_iff.mp (search_of_canonical_ne form other)))

/-- The last millisecond of the year 9999, before patterns for three digits and for two. -/
theorem datetime_format_last :
    let last := Timestamp.format (.ofInt 253402300799999)
    (∃ c, (Constraint.ofKind .string).register (.pattern (datetime (.exactly 3) true)) [] = .ok c ∧
      c.violations (.string last) = .ok []) ∧
    ∃ c, (Constraint.ofKind .string).register (.pattern (datetime (.exactly 2) true)) [63] = .ok c ∧
      c.violations (.string last) = .ok [[63]] := by
  obtain ⟨negative, size, exact, place⟩ :=
    Binary64.exists_ofInt_eq (show (253402300799999 : Int).natAbs ≤ 2 ^ 53 by decide)
  have unit := Timestamp.unitsPerOne_pos
  have both := datetime_format (.finite negative size) _ rfl (congrArg some place) (by omega)
    (by omega) true
  obtain ⟨c, registered, _⟩ := register_pattern (compile_exactly (show 0 < 2 by decide) true) [63]
  rw [exact]
  exact ⟨(both []).1 _ (.inr rfl), c, registered, (both [63]).2 2 c (by decide) registered⟩

end Schemata.Pattern

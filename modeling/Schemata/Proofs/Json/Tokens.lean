import Mathlib.Data.List.TakeWhile
import Schemata.Proofs.Json.Escapes
import Schemata.Proofs.Number.Shortest
import Schemata.Proofs.Runs
import Schemata.Value.Printer

/-! Strings and numbers, read as they are spelled. The reader takes the pieces of a string up to its
quote and the parts of a number, and nothing else. A number ends where no digit, point or exponent
follows, and so it does in front of everything that a text has behind a number. -/
namespace Schemata.Json

variable {t rest run whole s : Text} {b : UInt8} {negative : Bool} {v : Value} {pieces : List Piece}

/-- Nothing that a number could go on with. -/
def Ends (rest : Text) : Prop :=
  ∀ b ∈ rest.head?, Text.isDigit b = false ∧ b ≠ 46 ∧ b ≠ 101 ∧ b ≠ 69

theorem ends_nil : Ends [] := fun _ none => by cases none

theorem ends_cons (digit : Text.isDigit b = false) (point : b ≠ 46) (lower : b ≠ 101)
    (upper : b ≠ 69) : Ends (b :: t) := by
  rintro c ⟨⟩
  exact ⟨digit, point, lower, upper⟩

theorem ends_space (space : Text.isSpace b = true) : Ends (b :: t) := by
  refine ends_cons ?_ ?_ ?_ ?_
  · by_contra digit
    rw [Bool.not_eq_false] at digit
    cases space.symm.trans (Text.isSpace_eq_false_of_isDigit digit)
  all_goals
    rintro rfl
    cases space

section Strings

theorem stringBody_end (t : Text) : stringBody (34 :: t) = .ok ([], t) := by
  rw [stringBody.eq_def]
  rfl

theorem stringBody_plain (quote : b ≠ 34) (escape : b ≠ 92) :
    stringBody (b :: t) = prepend [b] (stringBody t) := by
  rw [stringBody.eq_def]
  simp only [if_neg quote, if_neg escape]

theorem stringBody_escaped {e c : UInt8} (known : escaped? e = some c) (short : e ≠ 117) :
    stringBody (92 :: e :: t) = prepend [c] (stringBody t) := by
  rw [stringBody.eq_def]
  simp only [if_neg (show ¬ (92 : UInt8) = 34 by decide), if_pos, if_neg short, known]

theorem stringBody_unit {four : Text} {u : UInt32} (long : four.length = 4)
    (read : unitOfEscape? four = some u) :
    stringBody (92 :: 117 :: (four ++ t)) = prepend (encodeUnit u) (stringBody t) := by
  obtain ⟨a, b, c, d, rfl⟩ := List.length_eq_four.mp long
  rw [stringBody.eq_def]
  simp only [if_neg (show ¬ (92 : UInt8) = 34 by decide), if_pos, List.cons_append, List.nil_append,
    read]

theorem escaped?_eq_some_iff {letter : UInt8} :
    escaped? letter = some b ↔ (letter, b) ∈ shortEscapes := by
  constructor
  · intro found
    unfold escaped? at found
    split_ifs at found with itself
    case pos =>
      cases found
      rcases itself with rfl | rfl | rfl <;> decide
    all_goals
      cases found
      subst letter
      decide
  · intro listed
    have all : shortEscapes.all (fun pair => escaped? pair.1 == some pair.2) = true := by decide
    exact eq_of_beq (List.all_eq_true.mp all _ listed)

theorem stringBody_piece {piece : Piece} (legal : piece.Legal .lenient) :
    stringBody (piece.written ++ t) = prepend piece.bytes (stringBody t) := by
  cases legal with
  | plain _ quote escape => exact stringBody_plain quote escape
  | short listed => exact stringBody_escaped (escaped?_eq_some_iff.mpr listed) (short_ne listed)
  | unit long allowed =>
    obtain ⟨u, number, rfl⟩ := allowed
    exact stringBody_unit long (unitOfEscape?_eq_some_iff.mpr number)

theorem stringBody_pieces (legal : ∀ piece ∈ pieces, piece.Legal .lenient) :
    stringBody (pieces.flatMap Piece.written ++ 34 :: rest) = .ok (meant pieces, rest) := by
  induction pieces with
  | nil => exact stringBody_end rest
  | cons piece pieces ih =>
    obtain ⟨first, others⟩ := List.forall_mem_cons.mp legal
    rw [List.flatMap_cons, List.append_assoc, stringBody_piece first, ih others]
    rfl

/-- The text is a string up to its closing quote, and `rest` stands behind that. -/
def IsString (t s rest : Text) : Prop := ∃ pieces : List Piece,
  (∀ piece ∈ pieces, piece.Legal .lenient) ∧ t = pieces.flatMap Piece.written ++ 34 :: rest ∧
    meant pieces = s

theorem isString_of_prepend {piece : Piece} (legal : piece.Legal .lenient)
    (read : prepend piece.bytes (stringBody t) = .ok (s, rest))
    (more : ∀ {s}, stringBody t = .ok (s, rest) → IsString t s rest) :
    IsString (piece.written ++ t) s rest := by
  obtain ⟨⟨behind, rest'⟩, inner, same⟩ := ok_of_map_ok read
  cases same
  obtain ⟨pieces, others, text, rfl⟩ := more inner
  refine ⟨piece :: pieces, List.forall_mem_cons.mpr ⟨legal, others⟩, ?_, rfl⟩
  rw [List.flatMap_cons, List.append_assoc, ← text]

theorem isString_of_stringBody (read : stringBody t = .ok (s, rest)) : IsString t s rest := by
  fun_induction stringBody t generalizing s with
  | case1 | case3 | case5 | case6 | case8 => cases read
  | case2 =>
    cases read
    exact ⟨[], fun _ none => absurd none List.not_mem_nil, rfl, rfl⟩
  | case4 h₁ h₂ h₃ h₄ t u number _ ih =>
    have legal : Piece.Legal .lenient ⟨[92, 117, h₁, h₂, h₃, h₄], encodeUnit u⟩ :=
      .unit rfl ⟨u, unitOfEscape?_eq_some_iff.mp number, rfl⟩
    exact isString_of_prepend legal read ih
  | case7 letter t _ b known _ ih =>
    have legal : Piece.Legal .lenient ⟨[92, letter], [b]⟩ := .short (escaped?_eq_some_iff.mp known)
    exact isString_of_prepend legal read ih
  | case9 b t quote escape ih =>
    have legal : Piece.Legal .lenient ⟨[b], [b]⟩ := .plain rfl quote escape
    exact isString_of_prepend legal read ih

end Strings

section Numbers

theorem digits_append (all : run.all Text.isDigit = true) (some : run ≠ [])
    (ends : ∀ b ∈ rest.head?, Text.isDigit b = false) : digits (run ++ rest) = .ok (run, rest) := by
  have taken := Text.takeWhile_isDigit_append all ends
  have dropped := Text.dropWhile_isDigit_append all ends
  simp [digits, taken, dropped, some]

theorem fraction_absent (ends : ∀ b ∈ rest.head?, b ≠ 46) : fraction rest = .ok (none, rest) := by
  unfold fraction
  cases rest with
  | nil => rfl
  | cons b t => rw [Text.skip?, if_neg (ends b rfl)]

theorem fraction_present (all : run.all Text.isDigit = true) (some : run ≠ [])
    (ends : ∀ b ∈ rest.head?, Text.isDigit b = false) :
    fraction (46 :: run ++ rest) = .ok (.some run, rest) := by
  unfold fraction
  rw [List.cons_append, Text.skip?, if_pos rfl]
  simp only [digits_append all some ends]
  rfl

theorem exponent_absent (ends : ∀ b ∈ rest.head?, b ≠ 101 ∧ b ≠ 69) :
    exponent rest = .ok (none, rest) := by
  cases rest with
  | nil => rfl
  | cons b t =>
    obtain ⟨lower, upper⟩ := ends b rfl
    simp [exponent, lower, upper]

theorem Digits.begins (digits : Digits t) : ∃ b r, t = b :: r ∧ Text.isDigit b = true := by
  obtain ⟨b, r, rfl⟩ := List.exists_cons_of_ne_nil digits.1
  exact ⟨b, r, rfl, List.all_eq_true.mp digits.2 b List.mem_cons_self⟩

theorem Exponent.Legal.read {e : Exponent} (legal : e.Legal)
    (ends : ∀ b ∈ rest.head?, Text.isDigit b = false) :
    exponent (e.text ++ rest) = .ok (some e.power, rest) := by
  obtain ⟨letter, sign, places⟩ := e
  obtain ⟨known, filled⟩ := legal
  have scanned := digits_append filled.2 filled.1 ends
  simp only [Exponent.text, Exponent.power, List.cons_append, List.append_assoc, exponent]
  rw [if_pos known]
  cases sign with
  | plus | minus =>
    simp only [Sign.text, List.cons_append, List.nil_append, scanned]
    rfl
  | absent =>
    obtain ⟨b, r, rfl, digit⟩ := filled.begins
    simp only [Sign.text, List.nil_append]
    split
    · rename_i same
      cases same
      cases digit
    · rename_i same
      cases same
      cases digit
    · rw [scanned]
      rfl

/-- What a numeral has behind its whole part goes on neither with a digit nor, behind the fraction,
with a point. -/
theorem head_exponent {part : Option Exponent} (legal : ∀ e ∈ part, e.Legal) (ends : Ends rest) :
    ∀ b ∈ (part.elim [] Exponent.text ++ rest).head?, Text.isDigit b = false ∧ b ≠ 46 := by
  cases part with
  | none => exact fun b first => ⟨(ends b first).1, (ends b first).2.1⟩
  | some e =>
    rintro b ⟨⟩
    rcases (legal e rfl).letter with lower | upper
    · rw [lower]
      decide
    · rw [upper]
      decide

/-- Nor does the whole part go on with a digit. -/
theorem head_fraction (part : Option Text) {behind : Text}
    (ends : ∀ b ∈ behind.head?, Text.isDigit b = false) :
    ∀ b ∈ (part.elim [] (46 :: ·) ++ behind).head?, Text.isDigit b = false := by
  cases part with
  | none => exact ends
  | some run =>
    rintro b ⟨⟩
    decide

theorem fraction_spelled {part : Option Text} (legal : ∀ digits ∈ part, Digits digits)
    (ends : ∀ b ∈ rest.head?, Text.isDigit b = false ∧ b ≠ 46) :
    fraction (part.elim [] (46 :: ·) ++ rest) = .ok (part, rest) := by
  cases part with
  | none => exact fraction_absent fun b first => (ends b first).2
  | some run =>
    exact fraction_present (legal run rfl).2 (legal run rfl).1 fun b first => (ends b first).1

theorem exponent_spelled {part : Option Exponent} (legal : ∀ e ∈ part, e.Legal) (ends : Ends rest) :
    exponent (part.elim [] Exponent.text ++ rest) = .ok (part.map Exponent.power, rest) := by
  cases part with
  | none => exact exponent_absent fun b first => (ends b first).2.2
  | some e => exact (legal e rfl).read fun b first => (ends b first).1

theorem unsigned_parts {behindWhole behindPart : Text} {part : Option Text} {power : Option Int}
    (first : digits t = .ok (whole, behindWhole)) (second : fraction behindWhole = .ok (part, behindPart))
    (third : exponent behindPart = .ok (power, rest)) :
    unsigned negative t = .ok (numberValue negative whole part power, rest) := by
  simp only [unsigned, bind, Except.bind, first, second, third]

/-- A number text and what it is read as, whatever comes behind it. -/
def ReadsNumber (negative : Bool) (text : Text) (v : Value) : Prop :=
  ∀ rest, Ends rest → unsigned negative (text ++ rest) = .ok (v, rest)

theorem numberValue_eq (n : Numeral) :
    numberValue n.negative n.whole n.fraction (n.exponent.map Exponent.power) = n.value := by
  obtain ⟨negative, whole, fraction, exponent⟩ := n
  cases fraction with
  | some =>
    cases exponent with
    | some | none => simp [numberValue, Numeral.value, Numeral.decimal]
  | none =>
    cases exponent with
    | some => simp [numberValue, Numeral.value, Numeral.decimal]
    | none => simp [numberValue, Numeral.value, Numeral.decimal, Numeral.integer, Value.ofDigits]

/-- A numeral is read as its value. -/
theorem readsNumber_numeral {n : Numeral} (legal : n.Legal .lenient) :
    ReadsNumber n.negative n.magnitude n.value := by
  intro rest ends
  have behind := head_exponent legal.exponent ends
  rw [Numeral.magnitude, List.append_assoc, List.append_assoc, ← numberValue_eq]
  have ahead := head_fraction n.fraction fun b first => (behind b first).1
  exact unsigned_parts (digits_append legal.whole.2 legal.whole.1 ahead)
    (fraction_spelled legal.fraction behind) (exponent_spelled legal.exponent ends)

end Numbers

section Spellings

variable {behind : Text} {fractionPart : Option Text} {power : Option Int}

theorem spelling_of_digits (read : digits t = .ok (run, rest)) : Digits run ∧ t = run ++ rest := by
  simp only [digits, List.isEmpty_iff] at read
  split at read
  · cases read
  · rename_i found
    cases read
    refine ⟨⟨found, List.all_eq_true.mpr fun b member => List.mem_takeWhile_imp member⟩, ?_⟩
    exact List.takeWhile_append_dropWhile.symm

theorem spelling_of_fraction (read : fraction t = .ok (fractionPart, rest)) :
    (∀ digits ∈ fractionPart, Digits digits) ∧ t = fractionPart.elim [] (46 :: ·) ++ rest := by
  unfold fraction at read
  split at read
  · cases read
    exact ⟨nofun, rfl⟩
  · rename_i skipped
    obtain ⟨⟨run, after⟩, scanned, same⟩ := ok_of_map_ok read
    cases same
    obtain ⟨filled, text⟩ := spelling_of_digits scanned
    refine ⟨by rintro digits ⟨⟩; exact filled, ?_⟩
    rw [Text.skip?_eq_some_iff.mp skipped, text]
    rfl

/-- An exponent that is there, or none. -/
theorem spelling_of_exponent (read : exponent t = .ok (power, rest)) : ∃ part : Option Exponent,
    (∀ e ∈ part, e.Legal) ∧ part.map Exponent.power = power ∧
      t = part.elim [] Exponent.text ++ rest := by
  have absent : ∃ part : Option Exponent, (∀ e ∈ part, e.Legal) ∧
      part.map Exponent.power = none ∧ rest = part.elim [] Exponent.text ++ rest :=
    ⟨none, nofun, rfl, rfl⟩
  have present {b : UInt8} {t : Text} (sign : Sign) (letter : b = 101 ∨ b = 69)
      (scanned : (digits t).map (fun read => (some (sign.apply (Text.toNat read.1)), read.2)) =
        .ok (power, rest)) : ∃ part : Option Exponent, (∀ e ∈ part, e.Legal) ∧
          part.map Exponent.power = power ∧
            b :: (sign.text ++ t) = part.elim [] Exponent.text ++ rest := by
    obtain ⟨⟨run, after⟩, taken, same⟩ := ok_of_map_ok scanned
    cases same
    obtain ⟨filled, text⟩ := spelling_of_digits taken
    refine ⟨some ⟨b, sign, run⟩, by rintro e ⟨⟩; exact ⟨letter, filled⟩, rfl, ?_⟩
    simp [text, Exponent.text]
  unfold exponent at read
  split at read
  · cases read
    exact absent
  · split at read
    · rename_i letter
      split at read
      · exact present .plus letter read
      · exact present .minus letter read
      · exact present .absent letter read
    · cases read
      exact absent

theorem spelling_of_unsigned (read : unsigned negative t = .ok (v, rest)) : ∃ n : Numeral,
    n.Legal .lenient ∧ n.negative = negative ∧ n.value = v ∧ t = n.magnitude ++ rest := by
  obtain ⟨⟨whole, afterWhole⟩, wholeRead, read⟩ := ok_of_bind_ok read
  obtain ⟨⟨fraction, afterFraction⟩, fractionRead, read⟩ := ok_of_bind_ok read
  obtain ⟨⟨power, afterPower⟩, powerRead, read⟩ := ok_of_bind_ok read
  cases read
  obtain ⟨filled, rfl⟩ := spelling_of_digits wholeRead
  obtain ⟨filled', rfl⟩ := spelling_of_fraction fractionRead
  obtain ⟨exponent, legal, rfl, rfl⟩ := spelling_of_exponent powerRead
  refine ⟨⟨negative, whole, fraction, exponent⟩, ⟨filled, rfl, filled', legal⟩, rfl,
    (numberValue_eq _).symm, ?_⟩
  simp only [Numeral.magnitude, List.append_assoc]

/-- What is read as a number is a numeral. -/
theorem spelling_of_number (read : number t = .ok (v, rest)) : ∃ n : Numeral,
    n.Legal .lenient ∧ n.value = v ∧ t = n.text ++ rest := by
  unfold number at read
  split at read
  · obtain ⟨n, legal, negative, value, text⟩ := spelling_of_unsigned read
    refine ⟨n, legal, value, ?_⟩
    rw [Numeral.text, if_pos negative, text]
    rfl
  · obtain ⟨n, legal, negative, value, text⟩ := spelling_of_unsigned read
    refine ⟨n, legal, value, ?_⟩
    rw [Numeral.text, if_neg (by simp [negative]), text]

end Spellings

end Schemata.Json

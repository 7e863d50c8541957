import Mathlib.Data.List.TakeWhile
import Schemata.Proofs.Json.Grammar
import Schemata.Proofs.Text

/-! Blanks, and the four bytes behind `\u`. The reader takes these for a number exactly where the lenient
dialect has one, and encodes a number of 16 bits as the standard dialect says. -/
namespace Schemata.Json

variable {b : UInt8} {n m : Nat} {t : Text} {u : UInt32}

theorem skipSpace_cons (solid : Text.isSpace b = false) : skipSpace (b :: t) = b :: t := by
  rw [skipSpace, List.dropWhile_cons_of_neg (by simp [solid])]

theorem skipSpace_blank {blank : Text} (all : ∀ b ∈ blank, Text.isSpace b = true) :
    skipSpace (blank ++ t) = skipSpace t :=
  List.dropWhile_append_of_pos all

theorem exists_blanks (t : Text) :
    ∃ blanks : Text, blanks.all Text.isSpace = true ∧ t = blanks ++ skipSpace t :=
  ⟨t.takeWhile Text.isSpace, List.all_eq_true.mpr fun _ member => List.mem_takeWhile_imp member,
    List.takeWhile_append_dropWhile.symm⟩

theorem hexDigit?_eq_some_iff : hexDigit? b = some n ↔ (b, n) ∈ hexValues := by
  constructor
  · intro found
    have figures : ∀ k < 10, (UInt8.ofNat (k + 48), k) ∈ hexValues := by decide
    have lower : ∀ k < 6, (UInt8.ofNat (k + 97), k + 10) ∈ hexValues := by decide
    have upper : ∀ k < 6, (UInt8.ofNat (k + 65), k + 10) ∈ hexValues := by decide
    have place {k : Nat} (same : k = b.toNat) : UInt8.ofNat k = b := by
      rw [same, UInt8.ofNat_toNat]
    simp only [hexDigit?, UInt8.le_iff_toNat_le, UInt8.reduceToNat] at found
    split_ifs at found
    · cases found
      have member := figures (b.toNat - 48) (by omega)
      rwa [place (by omega)] at member
    · cases found
      have member := lower (b.toNat - 97) (by omega)
      rwa [place (by omega), show b.toNat - 97 + 10 = b.toNat - 87 by omega] at member
    · cases found
      have member := upper (b.toNat - 65) (by omega)
      rwa [place (by omega), show b.toNat - 65 + 10 = b.toNat - 55 by omega] at member
  · have all : ∀ digit ∈ hexValues, hexDigit? digit.1 = some digit.2 := by decide
    exact all (b, n)

theorem hexDigits?_singleton (b : UInt8) : hexDigits? [b] = hexDigit? b := by
  simp [hexDigits?]

theorem hexDigits?_concat (some_digit : t ≠ []) : hexDigits? (t ++ [b]) =
    (hexDigits? t).bind fun m => (hexDigit? b).map (m * 16 + ·) := by
  rw [hexDigits?, hexDigits?, if_neg (by simp), if_neg (by simpa using some_digit),
    List.foldl_append, List.foldl_cons, List.foldl_nil]
  cases hexDigit? b <;> rfl

theorem HexNumber.ne_nil (number : HexNumber t n) : t ≠ [] := by
  cases number <;> simp

theorem hexDigits?_eq_some_iff : hexDigits? t = some n ↔ HexNumber t n := by
  constructor
  · intro read
    -- Digits are summed up from the left, so the last one is split off.
    induction t using List.reverseRecOn generalizing n with
    | nil => cases read
    | append_singleton t b ih =>
      by_cases alone : t = []
      · subst alone
        rw [List.nil_append, hexDigits?_singleton, hexDigit?_eq_some_iff] at read
        exact .digit read
      · rw [hexDigits?_concat alone, Option.bind_eq_some_iff] at read
        obtain ⟨m, front, last⟩ := read
        obtain ⟨d, digit, rfl⟩ := Option.map_eq_some_iff.mp last
        exact .append (ih front) (hexDigit?_eq_some_iff.mp digit)
  · intro number
    induction number with
    | digit digit => rw [hexDigits?_singleton, hexDigit?_eq_some_iff.mpr digit]
    | append front digit ih =>
      rw [hexDigits?_concat front.ne_nil, ih, hexDigit?_eq_some_iff.mpr digit]
      rfl

theorem hexValues_lt (digit : (b, n) ∈ hexValues) : n < 16 := by
  have all : ∀ digit ∈ hexValues, digit.2 < 16 := by decide
  exact all (b, n) digit

theorem HexNumber.lt (number : HexNumber t n) : n < 16 ^ t.length := by
  induction number with
  | digit digit => simpa using hexValues_lt digit
  | append front digit ih =>
    have last := hexValues_lt digit
    rw [List.length_append, List.length_singleton, Nat.pow_succ]
    omega

/-- A byte that is no mark of a base, no sign and no blank. -/
def Bare (b : UInt8) : Prop := b ≠ 120 ∧ b ≠ 88 ∧ b ≠ 43 ∧ b ≠ 45 ∧ Text.isSpace b = false

instance (b : UInt8) : Decidable (Bare b) := inferInstanceAs (Decidable (_ ∧ _))

theorem HexNumber.bare (number : HexNumber t n) : ∀ b ∈ t, Bare b := by
  have all : ∀ digit ∈ hexValues, Bare digit.1 := by decide
  induction number with
  | digit digit => exact List.forall_mem_singleton.mpr (all _ digit)
  | append _ digit ih =>
    exact List.forall_mem_append.mpr ⟨ih, List.forall_mem_singleton.mpr (all _ digit)⟩

/-- A number may have `0x` in front. -/
theorem hexNumber?_eq_some_iff : hexNumber? t = some n ↔
    ∃ lead digits, lead ∈ ([[], [48, 120], [48, 88]] : List Text) ∧ t = lead ++ digits ∧
      HexNumber digits n := by
  constructor
  · intro read
    unfold hexNumber? at read
    split at read
    · rename_i x d t
      split_ifs at read with marked
      · refine ⟨[48, x], d :: t, ?_, rfl, hexDigits?_eq_some_iff.mp read⟩
        rcases marked with rfl | rfl <;> simp
      · exact ⟨[], _, by simp, rfl, hexDigits?_eq_some_iff.mp read⟩
    · exact ⟨[], t, by simp, rfl, hexDigits?_eq_some_iff.mp read⟩
  · rintro ⟨lead, digits, listed, rfl, number⟩
    have read := hexDigits?_eq_some_iff.mpr number
    obtain ⟨c, rest, rfl⟩ := List.exists_cons_of_ne_nil number.ne_nil
    simp only [List.mem_cons, List.not_mem_nil, or_false] at listed
    rcases listed with rfl | rfl | rfl
    · unfold hexNumber?
      split
      · rename_i x d t same
        rw [List.nil_append] at same
        have bare := number.bare x (by simp [same])
        rw [if_neg (by simp [bare.1, bare.2.1])]
        exact same ▸ read
      · exact read
    · exact read
    · exact read

/-- The reader's numbers are those of the lenient dialect. -/
theorem unitOfEscape?_eq_some_iff : unitOfEscape? t = some u ↔ LenientUnit t u := by
  constructor
  · intro read
    obtain ⟨_, blanks, parts⟩ := exists_blanks t
    rw [parts]
    unfold unitOfEscape? at read
    split at read
    · rename_i rest start
      obtain ⟨n, found, rfl⟩ := Option.map_eq_some_iff.mp read
      obtain ⟨lead, digits, listed, rfl, number⟩ := hexNumber?_eq_some_iff.mp found
      rw [start]
      exact .mk .plus blanks listed number
    · rename_i rest start
      obtain ⟨n, found, rfl⟩ := Option.map_eq_some_iff.mp read
      obtain ⟨lead, digits, listed, rfl, number⟩ := hexNumber?_eq_some_iff.mp found
      rw [start]
      exact .mk .minus blanks listed number
    · obtain ⟨n, found, rfl⟩ := Option.map_eq_some_iff.mp read
      obtain ⟨lead, digits, listed, same, number⟩ := hexNumber?_eq_some_iff.mp found
      rw [same]
      exact .mk .absent blanks listed number
  · rintro ⟨sign, blank, listed, number⟩
    rename_i blanks lead digits n
    have read := hexNumber?_eq_some_iff.mpr ⟨lead, digits, listed, rfl, number⟩
    obtain ⟨c, rest, front⟩ : ∃ c rest, lead ++ digits = c :: rest :=
      List.exists_cons_of_ne_nil (List.append_ne_nil_of_right_ne_nil _ number.ne_nil)
    have first : c ≠ 43 ∧ c ≠ 45 ∧ Text.isSpace c = false := by
      simp only [List.mem_cons, List.not_mem_nil, or_false] at listed
      rcases listed with rfl | rfl | rfl
      · exact (number.bare c (by rw [← List.nil_append digits, front]; simp)).2.2
      · cases front
        decide
      · cases front
        decide
    have start : skipSpace (blanks ++ (sign.text ++ (lead ++ digits))) =
        sign.text ++ (lead ++ digits) := by
      rw [skipSpace_blank (List.all_eq_true.mp blank), front]
      cases sign with
      | absent => exact skipSpace_cons first.2.2
      | plus | minus => exact skipSpace_cons (by decide)
    unfold unitOfEscape?
    rw [start]
    cases sign with
    | plus | minus =>
      simp only [Sign.text, List.cons_append, List.nil_append, read]
      rfl
    | absent =>
      rw [Sign.text, List.nil_append]
      split
      · rename_i same
        exact absurd (List.cons.inj (front.symm.trans same)).1 first.1
      · rename_i same
        exact absurd (List.cons.inj (front.symm.trans same)).1 first.2.1
      · rw [read]
        rfl

/-- A byte with a header in its high bits and a number that fits below them. -/
theorem toUInt8_or {i a : Nat} {header : UInt32} (above : header.toNat = 2 ^ i * a)
    (below : u.toNat < 2 ^ i) : (u ||| header).toUInt8 = .ofNat (2 ^ i * a + u.toNat) := by
  rw [← UInt8.toNat_inj, UInt32.toNat_toUInt8, UInt32.toNat_or, above, Nat.or_comm,
    ← Nat.two_pow_add_eq_or_of_lt below, UInt8.toNat_ofNat']

theorem toNat_shiftRight {k : UInt32} (small : k.toNat < 32) :
    (u >>> k).toNat = u.toNat / 2 ^ k.toNat := by
  rw [UInt32.toNat_shiftRight, Nat.mod_eq_of_lt small, Nat.shiftRight_eq_div_pow]

theorem toNat_lowBits (u : UInt32) : (u &&& 0x3F).toNat = u.toNat % 64 := by
  rw [UInt32.toNat_and]
  exact Nat.and_two_pow_sub_one_eq_mod u.toNat 6

theorem encodeUnit_ofNat (small : n < 0x10000) : encodeUnit (.ofNat n) = unitBytes n := by
  obtain ⟨u, rfl⟩ : ∃ u : UInt32, u.toNat = n :=
    ⟨.ofNat n, UInt32.toNat_ofNat_of_lt' (by simp [UInt32.size]; omega)⟩
  have six : (u >>> 6).toNat = u.toNat / 64 := toNat_shiftRight (by decide)
  have twelve : (u >>> 12).toNat = u.toNat / 4096 := toNat_shiftRight (by decide)
  have tail (w : UInt32) : (w &&& 0x3F ||| 0x80).toUInt8 = .ofNat (0x80 + w.toNat % 64) := by
    rw [← toNat_lowBits]
    refine toUInt8_or (i := 6) (a := 2) rfl ?_
    rw [toNat_lowBits]
    exact Nat.mod_lt _ (by decide)
  rw [UInt32.ofNat_toNat]
  unfold encodeUnit unitBytes
  simp only [UInt32.lt_iff_toNat_lt, UInt32.reduceToNat]
  by_cases one : u.toNat < 0x80
  · rw [if_pos one, if_pos one]
    simp
  · rw [if_neg one, if_neg one]
    by_cases two : u.toNat < 0x800
    · rw [if_pos two, if_pos two, tail, ← six, toUInt8_or (i := 5) (a := 6) rfl (by omega)]
      rfl
    · rw [if_neg two, if_neg two, tail, tail, six, ← twelve,
        toUInt8_or (i := 4) (a := 14) rfl (by omega)]
      rfl

theorem HexNumber.lt_of_four (number : HexNumber t n) (long : t.length = 4) : n < 0x10000 := by
  have bound := number.lt
  rwa [long] at bound

theorem HexNumber.lenient (number : HexNumber t n) : LenientUnit t (.ofNat n) :=
  @LenientUnit.mk [] [] t n .absent rfl (by simp) number

theorem LenientUnit.eq_ofNat (allowed : LenientUnit t u) (number : HexNumber t n) : u = .ofNat n := by
  have first := unitOfEscape?_eq_some_iff.mpr allowed
  have second := unitOfEscape?_eq_some_iff.mpr number.lenient
  exact Option.some.inj (first.symm.trans second)

/-- Four hexadecimal digits are a lenient number of 16 bits. -/
theorem relaxed_within_lenient : Dialect.Within .relaxed .lenient where
  blank allowed := allowed
  plain allowed := allowed
  whole allowed := allowed
  unit := by
    rintro four bytes long ⟨n, number, rfl⟩
    exact ⟨.ofNat n, number.lenient, (encodeUnit_ofNat (number.lt_of_four long)).symm⟩

theorem standard_within_lenient : Dialect.Within .standard .lenient :=
  Dialect.standard_within_relaxed.trans relaxed_within_lenient

end Schemata.Json

import Schemata.Proofs.Timestamp.Reading

/-! Writing and reading undo each other, within the years that four digits write. What is written is a
stamp with milliseconds in UTC; there is one such stamp for every instant, and what is read from it is
that instant. -/
namespace Schemata.Timestamp

/-- A run of as many digits. -/
def Digits (n : Nat) (t : Text) : Prop := t.length = n ∧ t.all Text.isDigit = true

/-- The form `YYYY-MM-DDTHH:MM:SS.mmmZ`, whatever the digits are. -/
inductive Canonical : Text → Prop where
  | intro : Digits 4 year → Digits 2 month → Digits 2 day → Digits 2 hour → Digits 2 minute →
      Digits 2 second → Digits 3 millis → Canonical (year ++ 45 :: (month ++ 45 :: (day ++
        84 :: (hour ++ 58 :: (minute ++ 58 :: (second ++ 46 :: (millis ++ [90])))))))

/-- A date with a clock time in UTC, the milliseconds in three digits. -/
def Stamp.ofParts (date : CivilDate) (hour minute second millis : Nat) : Stamp :=
  ⟨date, some ⟨84, hour, minute, some ⟨second, some (Text.padZeros 3 (Text.ofNat millis))⟩,
    .utc false⟩⟩

def Stamp.ofMillis (value : Int) : Stamp :=
  let rest := (value % millisPerDay).toNat
  .ofParts (CivilDate.ofDayNumber (value / millisPerDay)) (rest / 3600000) (rest / 60000 % 60)
    (rest / 1000 % 60) (rest % 1000)

variable {s : Stamp} {value : Int} {date : CivilDate} {hour minute second millis n : Nat} {t : Text}

theorem thousandths_padZeros (small : millis < 1000) :
    Seconds.thousandths (Text.padZeros 3 (Text.ofNat millis)) = millis := by
  have long : (Text.padZeros 3 (Text.ofNat millis)).length = 3 :=
    Text.length_padZeros (by decide) small
  rw [Seconds.thousandths, long, Text.toNat_padZeros, Text.toNat_ofNat]
  exact Nat.mul_div_cancel millis (by decide)

theorem legal_ofParts (valid : date.isValid = true) (year : 0 ≤ date.year ∧ date.year ≤ 9999)
    (hours : hour ≤ 23) (minutes : minute ≤ 59) (seconds : second ≤ 59) :
    (Stamp.ofParts date hour minute second millis).Legal := by
  refine ⟨valid, year, ?_⟩
  rintro _ ⟨⟩
  refine ⟨.inl rfl, hours, minutes, ?_, trivial⟩
  rintro _ ⟨⟩
  refine ⟨seconds, ?_⟩
  rintro _ ⟨⟩
  exact ⟨Text.padZeros_ne_nil 3 (Text.ofNat_ne_nil millis),
    Text.all_isDigit_padZeros 3 (Text.all_isDigit_ofNat millis)⟩

theorem digits_padZeros {width : Nat} (positive : 0 < width) (small : n < 10 ^ width) :
    Digits width (Text.padZeros width (Text.ofNat n)) :=
  ⟨Text.length_padZeros positive small, Text.all_isDigit_padZeros width (Text.all_isDigit_ofNat n)⟩

theorem canonical_ofParts (legal : (Stamp.ofParts date hour minute second millis).Legal)
    (small : millis < 1000) : Canonical (Stamp.ofParts date hour minute second millis).text := by
  obtain ⟨valid, ⟨_, years⟩, legal⟩ := legal
  obtain ⟨⟨_, december⟩, _, last⟩ := CivilDate.isValid_iff.mp valid
  have short := CivilDate.daysInMonth_le date.year date.month
  obtain ⟨_, hours, minutes, legal, _⟩ := legal _ rfl
  have seconds := (legal _ rfl).second
  dsimp only [Stamp.ofParts] at years december last hours minutes seconds
  have four : Digits 4 (Text.padZeros 4 (Text.ofNat date.year.toNat)) :=
    digits_padZeros (by decide) (by omega)
  have two : ∀ n < 100, Digits 2 (twoDigits n) := fun n => digits_padZeros (show 0 < 2 by decide)
  have three : Digits 3 (Text.padZeros 3 (Text.ofNat millis)) := digits_padZeros (by decide) small
  have form := Canonical.intro four (two date.month (by omega)) (two date.day (by omega))
    (two hour (by omega)) (two minute (by omega)) (two second (by omega)) three
  simpa only [Stamp.ofParts, Stamp.text, Clock.text, Seconds.text, Zone.text, Option.elim,
    Bool.false_eq_true, if_false, List.append_assoc, List.cons_append] using form

theorem tells_ofParts_iff (legal : (Stamp.ofParts date hour minute second millis).Legal)
    (small : millis < 1000) : (Stamp.ofParts date hour minute second millis).Tells value ↔
      value = date.toDayNumber * 86400000 + ((hour * 60 + minute) * 60000 + second * 1000 + millis) := by
  rw [Stamp.tells_iff _ legal]
  simp only [Stamp.ofParts, Option.elim, Clock.millis, Seconds.millis, Zone.ahead,
    thousandths_padZeros small, millisPerDay]
  omega

section Writing

theorem ofMillis_spec (low : -62167219200000 ≤ value) (high : value ≤ 253402300799999) :
    (Stamp.ofMillis value).Legal ∧ (Stamp.ofMillis value).Tells value := by
  have valid := CivilDate.isValid_ofDayNumber (value / millisPerDay)
  have number := CivilDate.toDayNumber_ofDayNumber (value / millisPerDay)
  unfold millisPerDay at valid number
  have year := (CivilDate.year_iff valid).mpr (by omega)
  have legal : (Stamp.ofMillis value).Legal :=
    legal_ofParts valid year (by unfold millisPerDay; omega) (by omega) (by omega)
  refine ⟨legal, (tells_ofParts_iff legal (by omega)).mpr ?_⟩
  rw [millisPerDay, number]
  omega

theorem write_eq (low : -62167219200000 ≤ value) (high : value ≤ 253402300799999) :
    write value = (Stamp.ofMillis value).text := by
  have year : 0 ≤ (CivilDate.ofDayNumber (value / millisPerDay)).year :=
    (ofMillis_spec low high).1.year.1
  have size : (CivilDate.ofDayNumber (value / millisPerDay)).year.natAbs =
      (CivilDate.ofDayNumber (value / millisPerDay)).year.toNat := by omega
  simp [write, yearText, Int.not_lt.mpr year, size, Stamp.ofMillis, Stamp.ofParts, Stamp.text,
    Clock.text, Seconds.text, Zone.text]

/-- What is written of an instant has the written form. -/
theorem canonical_write (low : -62167219200000 ≤ value) (high : value ≤ 253402300799999) :
    Canonical (write value) := by
  rw [write_eq low high]
  exact canonical_ofParts (ofMillis_spec low high).1 (by omega)

theorem parse?_write (low : -62167219200000 ≤ value) (high : value ≤ 253402300799999) :
    parse? (write value) = some (.ofInt value) := by
  obtain ⟨legal, tells⟩ := ofMillis_spec low high
  rw [write_eq low high, parse?_text legal tells]

theorem unitsPerOne_pos : (0 : Int) < Binary64.unitsPerOne :=
  Int.natCast_pos.mpr Binary64.unitsPerOne_pos

/-- What is written of a number is its floor. -/
theorem format_finite (negative : Bool) (size : Magnitude) : format (.finite negative size) =
    write (Binary64.signedUnits negative size / Binary64.unitsPerOne) := by
  rw [format, Binary64.floorInt, Int.fdiv_eq_ediv_of_nonneg _ (Int.le_of_lt unitsPerOne_pos)]

/-- In the years of four digits. -/
theorem canonical_format {x : Binary64} {place : Int} (finite : x.isFinite = true)
    (there : x.place? = some place) (low : -62167219200000 * Binary64.unitsPerOne ≤ place)
    (high : place < 253402300800000 * Binary64.unitsPerOne) : Canonical (format x) := by
  cases x with
  | nan | infinity => cases finite
  | finite negative size =>
    obtain rfl : Binary64.signedUnits negative size = place := Option.some.inj there
    have least := (Int.le_ediv_iff_mul_le unitsPerOne_pos).mpr low
    have most := Int.ediv_lt_of_lt_mul unitsPerOne_pos high
    rw [format_finite]
    exact canonical_write least (by omega)

theorem format_ofInt (small : value.natAbs ≤ 2 ^ 53) : format (.ofInt value) = write value := by
  obtain ⟨negative, size, exact, place⟩ := Binary64.exists_ofInt_eq small
  rw [exact, format_finite, place, Int.mul_ediv_cancel _ unitsPerOne_pos.ne']

end Writing

section Reading

theorem length_twoDigits (small : n < 100) : (twoDigits n).length = 2 :=
  Text.length_padZeros (by decide) small

/-- The number that three digits write. -/
theorem exists_padZeros_eq (three : Digits 3 t) :
    ∃ millis < 1000, t = Text.padZeros 3 (Text.ofNat millis) := by
  have small := Text.toNat_lt t three.2
  rw [three.1] at small
  refine ⟨t.toNat, small, ?_⟩
  apply Text.eq_of_toNat_eq three.2 (Text.all_isDigit_padZeros 3 (Text.all_isDigit_ofNat _))
  · rw [three.1, Text.length_padZeros (by decide) small]
  · rw [Text.toNat_padZeros, Text.toNat_ofNat]

theorem Zone.eq_utc {zone : Zone} (same : zone.text = [90]) : zone = .utc false := by
  cases zone with
  | omitted => cases same
  | utc lower =>
    cases lower with
    | true => cases same
    | false => rfl
  | offset behind hours minutes colon => cases behind <;> cases same

theorem fraction_of_text {fraction : Option Text} {zone : Zone} {three : Text}
    (legal : ∀ digits ∈ fraction, Seconds.IsFraction digits)
    (run : Digits 3 three)
    (same : fraction.elim [] (46 :: ·) ++ zone.text = 46 :: (three ++ [90])) :
    fraction = some three ∧ zone = .utc false := by
  cases fraction with
  | none =>
    rw [Option.elim, List.nil_append] at same
    exact absurd rfl (zone.closes 46 (by rw [same]; rfl)).2.2
  | some digits =>
    have same : digits ++ zone.text = three ++ [90] := (List.cons.inj same).2
    have ends : ∀ b ∈ zone.text.head?, Text.isDigit b = false :=
      fun b first => (zone.closes b first).1
    have letter : ∀ b ∈ ([90] : Text).head?, Text.isDigit b = false := by
      rintro _ ⟨⟩
      decide
    have taken := Text.takeWhile_isDigit_append (legal digits rfl).2 ends
    have left := Text.dropWhile_isDigit_append (legal digits rfl).2 ends
    rw [same] at taken left
    rw [Text.takeWhile_isDigit_append run.2 letter] at taken
    rw [Text.dropWhile_isDigit_append run.2 letter] at left
    exact ⟨by rw [taken], Zone.eq_utc left.symm⟩

theorem seconds_of_text {seconds : Option Seconds} {zone : Zone} {two three : Text}
    (legal : ∀ s ∈ seconds, s.Legal) (run : Digits 2 two) (run' : Digits 3 three)
    (same : seconds.elim [] Seconds.text ++ zone.text = 58 :: (two ++ 46 :: (three ++ [90]))) :
    ∃ second, seconds = some ⟨second, some three⟩ ∧ zone = .utc false := by
  cases seconds with
  | none =>
    rw [Option.elim, List.nil_append] at same
    exact absurd rfl (zone.closes 58 (by rw [same]; rfl)).2.1
  | some s =>
    obtain ⟨second, fraction⟩ := s
    obtain ⟨bound, legal⟩ := legal _ rfl
    have long : (twoDigits second).length = 2 :=
      length_twoDigits (Nat.lt_of_le_of_lt bound (by decide))
    have same : (twoDigits second ++ fraction.elim [] (46 :: ·)) ++ zone.text =
      two ++ 46 :: (three ++ [90]) := (List.cons.inj same).2
    rw [List.append_assoc] at same
    have rest := List.append_inj_right same (long.trans run.1.symm)
    obtain ⟨rfl, ends⟩ := fraction_of_text legal run' rest
    exact ⟨second, rfl, ends⟩

/-- A legal stamp whose text has the form that is written. -/
theorem eq_ofParts (legal : s.Legal) (form : Canonical s.text) : ∃ hour minute second millis,
    millis < 1000 ∧ s = .ofParts s.date hour minute second millis := by
  obtain ⟨date, clock⟩ := s
  obtain ⟨valid, years, legal⟩ := legal
  obtain ⟨⟨_, december⟩, _, last⟩ := CivilDate.isValid_iff.mp valid
  have short := CivilDate.daysInMonth_le date.year date.month
  -- The parts of the date have as many bytes on both sides and are split off one by one; then only a
  -- clock time can go on as the form does.
  generalize same : Stamp.text _ = t at form
  cases form with
  | intro year month day hour minute second millis =>
    have four : date.year.toNat < 10 ^ 4 := by
      dsimp only at years
      omega
    have year' := Text.length_padZeros (show 0 < 4 by decide) four
    have rest := (List.cons.inj (List.append_inj_right same (year'.trans year.1.symm))).2
    have month' := length_twoDigits (n := date.month) (by dsimp only at december; omega)
    have rest := (List.cons.inj (List.append_inj_right rest (month'.trans month.1.symm))).2
    have day' := length_twoDigits (n := date.day) (by dsimp only at last; omega)
    have rest := List.append_inj_right rest (day'.trans day.1.symm)
    cases clock with
    | none => cases rest
    | some c =>
      obtain ⟨separator, hours, minutes, seconds, zone⟩ := c
      obtain ⟨_, hourly, sixty, legal, _⟩ := legal _ rfl
      obtain ⟨rfl, rest⟩ := List.cons.inj rest
      have hour' := length_twoDigits (n := hours) (by dsimp only at hourly; omega)
      have rest := (List.cons.inj (List.append_inj_right rest (hour'.trans hour.1.symm))).2
      have minute' := length_twoDigits (n := minutes) (by dsimp only at sixty; omega)
      have rest := List.append_inj_right rest (minute'.trans minute.1.symm)
      obtain ⟨seconds, rfl, rfl⟩ := seconds_of_text legal second millis rest
      obtain ⟨thousandths, small, rfl⟩ := exists_padZeros_eq millis
      exact ⟨hours, minutes, seconds, thousandths, small, rfl⟩

/-- There is one stamp of the written form for an instant. -/
theorem ofMillis_of_tells (legal : s.Legal) (form : Canonical s.text) (tells : s.Tells value) :
    Stamp.ofMillis value = s ∧ -62167219200000 ≤ value ∧ value ≤ 253402300799999 := by
  obtain ⟨hour, minute, second, millis, small, same⟩ := eq_ofParts legal form
  have valid := legal.date
  have days := (CivilDate.year_iff valid).mp legal.year
  rw [same] at legal tells ⊢
  have count := (tells_ofParts_iff legal small).mp tells
  obtain ⟨_, hours, minutes, seconds, _⟩ := legal.clock _ rfl
  have seconds := (seconds _ rfl).second
  dsimp only at hours minutes seconds
  have day : value / millisPerDay = s.date.toDayNumber := by
    unfold millisPerDay
    omega
  have rest : value % millisPerDay = ((hour * 60 + minute) * 60000 + second * 1000 + millis : Nat) := by
    unfold millisPerDay
    omega
  refine ⟨?_, by omega, by omega⟩
  simp only [Stamp.ofMillis, day, rest, CivilDate.ofDayNumber_toDayNumber valid,
    Int.toNat_natCast]
  congr 1 <;> omega

theorem format_of_parse? {x : Binary64} (form : Canonical t) (parsed : parse? t = some x) :
    format x = t := by
  obtain ⟨value, read, rfl⟩ := Option.map_eq_some_iff.mp parsed
  obtain ⟨s, legal, rfl, count⟩ := read?_eq_some_iff.mp read
  have tells := (s.tells_iff legal).mpr count
  obtain ⟨same, low, high⟩ := ofMillis_of_tells legal form tells
  rw [format_ofInt (Stamp.natAbs_le legal tells), write_eq low high, same]

end Reading

/-- In the years 0 to 9999 of the calendar, reading what is written of a number gives its floor, and so
the number itself if it has no fraction; and writing what is read of a text in the written form gives
the text. -/
theorem parse?_format :
    (∀ millis : Int, -62167219200000 ≤ millis → millis ≤ 253402300799999 →
      parse? (format (.ofInt millis)) = some (.ofInt millis)) ∧
    (∀ (x : Binary64) (place : Int), x.isFinite = true → x.place? = some place →
      -62167219200000 * Binary64.unitsPerOne ≤ place →
      place < 253402300800000 * Binary64.unitsPerOne → ∃ millis : Int,
        parse? (format x) = some (.ofInt millis) ∧
        (Binary64.ofInt millis).place? = some (millis * Binary64.unitsPerOne) ∧
        millis * Binary64.unitsPerOne ≤ place ∧ place < (millis + 1) * Binary64.unitsPerOne) ∧
    ∀ t x, Canonical t → parse? t = some x → format x = t := by
  refine ⟨?_, ?_, fun t x => format_of_parse?⟩
  · intro millis low high
    rw [format_ofInt (by omega), parse?_write low high]
  · intro x place finite there low high
    cases x with
    | nan | infinity => cases finite
    | finite negative size =>
      obtain rfl : Binary64.signedUnits negative size = place := Option.some.inj there
      have least := (Int.le_ediv_iff_mul_le unitsPerOne_pos).mpr low
      have most := Int.ediv_lt_of_lt_mul unitsPerOne_pos high
      refine ⟨Binary64.signedUnits negative size / Binary64.unitsPerOne, ?_, ?_,
        Int.ediv_mul_le _ unitsPerOne_pos.ne', Int.lt_ediv_add_one_mul_self _ unitsPerOne_pos⟩
      · rw [format_finite]
        exact parse?_write least (by omega)
      · exact Binary64.place?_ofInt (by omega)

/-- The last instant before 1970, a number between it and 1970, and the end of the leap day of year 0. -/
theorem parse?_format_ends :
    let little : Magnitude := ⟨1, Binary64.representable_fraction (by decide)⟩
    let leapDay := Text.ofString "0000-02-29T23:59:59.999Z"
    parse? (format (.ofInt (-1))) = some (.ofInt (-1)) ∧
    parse? (format (.finite true little)) = some (.ofInt (-1)) ∧
    parse? leapDay = some (.ofInt (-62162035200001)) ∧ format (.ofInt (-62162035200001)) = leapDay := by
  intro little leapDay
  obtain ⟨whole, floors, texts⟩ := parse?_format
  have unit := unitsPerOne_pos
  obtain ⟨millis, floored, _, least, most⟩ :=
    floors (.finite true little) (-1) rfl rfl (by omega) (by omega)
  have ends : millis = -1 := by nlinarith
  have parts : leapDay = [48, 48, 48, 48] ++ 45 :: ([48, 50] ++ 45 :: ([50, 57] ++ 84 ::
      ([50, 51] ++ 58 :: ([53, 57] ++ 58 :: ([53, 57] ++ 46 :: ([57, 57, 57] ++ [90])))))) := by cbv
  have form : Canonical leapDay := by
    rw [parts]
    constructor <;> exact ⟨rfl, rfl⟩
  have read : read? leapDay = some (-62162035200001) := by
    rw [parts]
    decide
  have parsed : parse? leapDay = some (.ofInt (-62162035200001)) := by
    rw [parse?, read]
    rfl
  exact ⟨whole (-1) (by decide) (by decide), by rw [floored, ends], parsed, texts _ _ form parsed⟩

end Schemata.Timestamp

import Schemata.Proofs.Calendar.Gregorian

/-! Day numbers in machine words. In words of 64 bits a division goes toward zero and a result that does
not fit is reduced; the reckoning below is guarded against the first, and as long as its first step fits,
no later one fails to. What it comes to is then what the reckoning in integers comes to, and that is the
proleptic Gregorian calendar. -/
namespace Schemata.CivilDate

/-- A quotient rounded down, by a division that goes toward zero. -/
def floorWord (w size : Int64) : Int64 := (if 0 ≤ w then w else w - (size - 1)) / size

def yearOfEraWord (day : Int64) : Int64 := (day - day / 1460 + day / 36524 - day / 146096) / 365

/-- The days of a year that begins in March before a day of a month. -/
def dayOfYearWord (month day : UInt32) : UInt32 :=
  (153 * (if month > 2 then month - 3 else month + 9) + 2) / 5 + day - 1

/-- The day number of a date. -/
def wordOfDate (year : Int64) (month day : UInt32) : Int64 :=
  let year := if month ≤ 2 then year - 1 else year
  let era := floorWord year 400
  let yearOfEra := year - era * 400
  let dayOfEra := yearOfEra * 365 + yearOfEra / 4 - yearOfEra / 100 +
    Int64.ofNat (dayOfYearWord month day).toNat
  era * 146097 + dayOfEra - 719468

/-- The date on a day of a year that begins in March. -/
def civilOfWords (year day : Int64) : CivilDate :=
  let month := (5 * day + 2) / 153
  let civilMonth := if month < 10 then month + 3 else month - 9
  ⟨(if civilMonth ≤ 2 then year + 1 else year).toInt, civilMonth.toInt.toNat,
    (day - (153 * month + 2) / 5 + 1).toInt.toNat⟩

/-- The date of a day number. -/
def dateOfWord (number : Int64) : CivilDate :=
  let days := number + 719468
  let era := floorWord days 146097
  let dayOfEra := days - era * 146097
  let yearOfEra := yearOfEraWord dayOfEra
  civilOfWords (yearOfEra + era * 400)
    (dayOfEra - (365 * yearOfEra + yearOfEra / 4 - yearOfEra / 100))

/-- A word that holds an integer. -/
def Holds (w : Int64) (n : Int) : Prop := w.toInt = n

variable {a b : Int64} {m n : Int} {d : CivilDate} {month day : UInt32}

section Arithmetic

theorem Holds.range (held : Holds a m) : -2 ^ 63 ≤ m ∧ m < 2 ^ 63 :=
  held ▸ ⟨Int64.le_toInt a, Int64.toInt_lt a⟩

theorem Holds.le_iff (left : Holds a m) (right : Holds b n) : a ≤ b ↔ m ≤ n := by
  rw [Int64.le_iff_toInt_le, left, right]

theorem Holds.lt_iff (left : Holds a m) (right : Holds b n) : a < b ↔ m < n := by
  rw [Int64.lt_iff_toInt_lt, left, right]

theorem Holds.add (left : Holds a m) (right : Holds b n) (low : -2 ^ 63 ≤ m + n)
    (high : m + n < 2 ^ 63) : Holds (a + b) (m + n) := by
  rw [Holds, Int64.toInt_add, left, right, Int.bmod_eq_of_le (by omega) (by omega)]

theorem Holds.sub (left : Holds a m) (right : Holds b n) (low : -2 ^ 63 ≤ m - n)
    (high : m - n < 2 ^ 63) : Holds (a - b) (m - n) := by
  rw [Holds, Int64.toInt_sub, left, right, Int.bmod_eq_of_le (by omega) (by omega)]

theorem Holds.mul (left : Holds a m) (right : Holds b n) (low : -2 ^ 63 ≤ m * n)
    (high : m * n < 2 ^ 63) : Holds (a * b) (m * n) := by
  rw [Holds, Int64.toInt_mul, left, right, Int.bmod_eq_of_le (by omega) (by omega)]

theorem Holds.div (left : Holds a m) (right : Holds b n) (nonneg : 0 ≤ m) (positive : 0 < n) :
    Holds (a / b) (m / n) := by
  have range := left.range
  have low : 0 ≤ m / n := Int.ediv_nonneg nonneg (Int.le_of_lt positive)
  have high : m / n ≤ m := Int.ediv_le_self n nonneg
  rw [Holds, Int64.toInt_div, left, right, Int.tdiv_eq_ediv_of_nonneg nonneg,
    Int.bmod_eq_of_le (by omega) (by omega)]

/-- Below zero, one less than the divisor takes a division toward zero to the next quotient below. -/
theorem tdiv_sub_eq (negative : m < 0) (positive : 0 < n) : (m - (n - 1)).tdiv n = m / n := by
  have split := Int.mul_ediv_add_emod m n
  have least := Int.emod_nonneg m (Int.ne_of_gt positive)
  have most := Int.emod_lt_of_pos m positive
  have turned : m - (n - 1) = -(n - 1 - m) := by omega
  have parts : n - 1 - m = (n - 1 - m % n) + n * -(m / n) := by
    rw [Int.mul_neg]
    omega
  rw [turned, Int.neg_tdiv, Int.tdiv_eq_ediv_of_nonneg (by omega), parts,
    Int.add_mul_ediv_left _ _ (Int.ne_of_gt positive), Int.ediv_eq_zero_of_lt (by omega) (by omega),
    Int.zero_add, Int.neg_neg]

theorem Holds.floor (left : Holds a m) (right : Holds b n) (positive : 0 < n)
    (room : -2 ^ 63 + n ≤ m) : Holds (floorWord a b) (m / n) := by
  have range := left.range
  have zero : Holds 0 0 := rfl
  unfold floorWord
  split
  · rename_i nonneg
    exact left.div right ((zero.le_iff left).mp nonneg) positive
  · rename_i below
    have negative : m < 0 := Int.not_le.mp (mt (zero.le_iff left).mpr below)
    have wide := right.range
    have one : Holds 1 1 := rfl
    have less := left.sub (right.sub one (by omega) (by omega)) (by omega) (by omega)
    have low : m ≤ m / n := by
      rw [Int.le_ediv_iff_mul_le positive]
      have most := Int.mul_le_mul_of_nonpos_left (Int.le_of_lt negative) (show 1 ≤ n from positive)
      omega
    have high : m / n < 0 := Int.ediv_neg_of_neg_of_pos negative positive
    rw [Holds, Int64.toInt_div, less, right, tdiv_sub_eq negative positive,
      Int.bmod_eq_of_le (by omega) (by omega)]

end Arithmetic

section OfNumber

theorem Holds.yearOfEra (day : Holds a m) (least : 0 ≤ m) (most : m < 146097) :
    Holds (yearOfEraWord a) (CivilDate.yearOfEra m) := by
  have cycles : Holds (a / 1460) (m / 1460) := day.div rfl least (by decide)
  have centuries : Holds (a / 36524) (m / 36524) := day.div rfl least (by decide)
  have eras : Holds (a / 146096) (m / 146096) := day.div rfl least (by decide)
  have years := ((day.sub cycles (by omega) (by omega)).add centuries (by omega) (by omega)).sub eras
    (by omega) (by omega)
  exact years.div rfl (by omega) (by decide)

theorem Holds.beforeMonth (month : Holds a m) (least : 0 ≤ m) (most : m < 12) :
    Holds ((153 * a + 2) / 5) (daysBeforeMonth m) := by
  have scaled := Holds.mul (show Holds 153 153 from rfl) month (by omega) (by omega)
  exact (scaled.add (show Holds 2 2 from rfl) (by omega) (by omega)).div rfl (by omega) (by decide)

theorem civilOfWords_eq (valid : d.isValid = true) (year : Holds a d.marchYear)
    (day : Holds b d.marchDay) (room : d.marchYear + 1 < 2 ^ 63) : civilOfWords a b = d := by
  obtain ⟨⟨first, last⟩, begun, current, _⟩ := marchDay_bounds valid
  have month_eq := (parts_toDayNumber valid).month
  obtain ⟨civilMonth, civilYear, civilDay⟩ := civil_of_march valid
  have range := year.range
  have two : Holds 2 2 := rfl
  have ten : Holds 10 10 := rfl
  obtain ⟨w, named⟩ : ∃ w, w = (5 * b + 2) / 153 := ⟨_, rfl⟩
  unfold daysBeforeMonth at begun current
  have month : Holds w d.marchMonth := by
    have scaled := Holds.mul (show Holds 5 5 from rfl) day (by omega) (by omega)
    rw [named, ← month_eq]
    exact (scaled.add two (by omega) (by omega)).div rfl (by omega) (by decide)
  have ofMonth : Holds (if w < 10 then w + 3 else w - 9) d.month := by
    rw [← civilMonth]
    by_cases early : d.marchMonth < 10
    · rw [if_pos early, if_pos ((month.lt_iff ten).mpr early)]
      exact month.add rfl (by omega) (by omega)
    · rw [if_neg early, if_neg (mt (month.lt_iff ten).mp early)]
      exact month.sub rfl (by omega) (by omega)
  have ofDay : Holds (b - (153 * w + 2) / 5 + 1) d.day := by
    have before := month.beforeMonth first last
    unfold daysBeforeMonth at before
    rw [← civilDay]
    exact (day.sub before (by omega) (by omega)).add rfl (by omega) (by omega)
  have ofYear : Holds (if (if w < 10 then w + 3 else w - 9) ≤ 2 then a + 1 else a) d.year := by
    have whole : d.marchYear % 400 + d.marchYear / 400 * 400 = d.marchYear := by omega
    rw [← civilYear, civilMonth, whole]
    by_cases winter : (d.month : Int) ≤ 2
    · rw [if_pos winter, if_pos ((ofMonth.le_iff two).mpr winter)]
      exact year.add rfl (by omega) room
    · rw [if_neg winter, if_neg (mt (ofMonth.le_iff two).mp winter)]
      exact year
  simp only [civilOfWords, ← named]
  rw [ofYear, ofMonth, ofDay]
  rfl

theorem dateOfWord_eq (valid : d.isValid = true) (held : Holds a d.toDayNumber)
    (fits : d.toDayNumber + 719468 < 2 ^ 63) : dateOfWord a = d := by
  obtain ⟨partEra, partYear, partDay, _⟩ := parts_toDayNumber valid
  have range := held.range
  have size : Holds 146097 146097 := rfl
  have days := held.add (show Holds 719468 719468 from rfl) (by omega) fits
  have era := days.floor size (by decide) (by omega)
  rw [partEra] at era
  have ofEra := days.sub (era.mul size (by omega) (by omega)) (by omega) (by omega)
  have year := ofEra.yearOfEra (by omega) (by omega)
  rw [partYear] at year
  have cycles := year.div (show Holds 4 4 from rfl) (by omega) (by decide)
  have centuries := year.div (show Holds 100 100 from rfl) (by omega) (by decide)
  have years := Holds.mul (show Holds 365 365 from rfl) year (by omega) (by omega)
  have before := (years.add cycles (by omega) (by omega)).sub centuries (by omega) (by omega)
  have day := ofEra.sub before (by omega) (by omega)
  rw [partDay] at day
  have whole := year.add (era.mul (show Holds 400 400 from rfl) (by omega) (by omega)) (by omega)
    (by omega)
  rw [show d.marchYear % 400 + d.marchYear / 400 * 400 = d.marchYear by omega] at whole
  exact civilOfWords_eq valid whole day (by omega)

end OfNumber

section OfDate

theorem holds_dayOfYear (valid : d.isValid = true) (ofMonth : month.toNat = d.month)
    (ofDay : day.toNat = d.day) :
    Holds (Int64.ofNat (dayOfYearWord month day).toNat) d.marchDay := by
  obtain ⟨⟨least, most⟩, begun, _⟩ := isValid_iff.mp valid
  obtain ⟨months, reached, current, _⟩ := marchDay_bounds valid
  have index : ((if month > 2 then month - 3 else month + 9).toNat : Int) = d.marchMonth := by
    have late : month > 2 ↔ d.month > 2 := by
      rw [gt_iff_lt, UInt32.lt_iff_toNat_lt, ofMonth]
      rfl
    simp only [marchMonth, late]
    split
    · simp only [UInt32.toNat_sub, UInt32.reduceToNat, ofMonth]
      omega
    · simp only [UInt32.toNat_add, UInt32.reduceToNat, ofMonth]
      omega
  have count : ((dayOfYearWord month day).toNat : Int) = d.marchDay := by
    unfold daysBeforeMonth at current
    simp only [dayOfYearWord, marchDay, daysBeforeMonth, ← index] at months current ⊢
    generalize (if month > 2 then month - 3 else month + 9) = passed at *
    have short : d.day ≤ 31 := by omega
    have product : (153 * passed).toNat = 153 * passed.toNat := by
      simp only [UInt32.toNat_mul, UInt32.reduceToNat]
      omega
    have scaled : (153 * passed + 2).toNat = 153 * passed.toNat + 2 := by
      simp only [UInt32.toNat_add, product, UInt32.reduceToNat]
      omega
    have sum : ((153 * passed + 2) / 5 + day).toNat = (153 * passed.toNat + 2) / 5 + d.day := by
      simp only [UInt32.toNat_add, UInt32.toNat_div, scaled, UInt32.reduceToNat, ofDay]
      omega
    have positive : (1 : UInt32) ≤ (153 * passed + 2) / 5 + day := by
      rw [UInt32.le_iff_toNat_le, sum]
      exact Nat.le_trans begun (Nat.le_add_left _ _)
    rw [UInt32.toNat_sub_of_le _ _ positive, sum]
    simp only [UInt32.reduceToNat]
    omega
  unfold daysBeforeMonth at reached current
  rw [Holds, Int64.toInt_ofNat_of_lt (by omega), count]

theorem wordOfDate_eq (valid : d.isValid = true) (year : Holds a d.year)
    (ofMonth : month.toNat = d.month) (ofDay : day.toNat = d.day)
    (low : -2 ^ 63 ≤ d.toDayNumber) (high : d.toDayNumber + 719468 < 2 ^ 63) :
    Holds (wordOfDate a month day) d.toDayNumber := by
  obtain ⟨_, reached, current, _⟩ := marchDay_bounds valid
  obtain ⟨partEra, _, partDay, _⟩ := parts_toDayNumber valid
  unfold daysBeforeMonth at reached current
  have march : Holds (if month ≤ 2 then a - 1 else a) d.marchYear := by
    have early : month ≤ 2 ↔ d.month ≤ 2 := by
      rw [UInt32.le_iff_toNat_le, ofMonth]
      rfl
    unfold marchYear at partEra ⊢
    by_cases winter : d.month ≤ 2
    · rw [if_pos winter] at partEra ⊢
      rw [if_pos (early.mpr winter)]
      exact year.sub (show Holds 1 1 from rfl) (by omega) (by omega)
    · rw [if_neg winter, if_neg (mt early.mp winter)]
      exact year
  have size : Holds 400 400 := rfl
  have era := march.floor size (by decide) (by omega)
  have ofEra := march.sub (era.mul size (by omega) (by omega)) (by omega) (by omega)
  rw [show d.marchYear - d.marchYear / 400 * 400 = d.marchYear % 400 by omega] at ofEra
  have years := ofEra.mul (show Holds 365 365 from rfl) (by omega) (by omega)
  have cycles := ofEra.div (show Holds 4 4 from rfl) (by omega) (by decide)
  have centuries := ofEra.div (show Holds 100 100 from rfl) (by omega) (by decide)
  have before := (years.add cycles (by omega) (by omega)).sub centuries (by omega) (by omega)
  have dayOfEra := before.add (holds_dayOfYear valid ofMonth ofDay) (by omega) (by omega)
  have eras := era.mul (show Holds 146097 146097 from rfl) (by omega) (by omega)
  have number := (eras.add dayOfEra (by omega) (by omega)).sub
    (show Holds 719468 719468 from rfl) (by omega) (by omega)
  have whole : d.marchYear / 400 * 146097 +
      (d.marchYear % 400 * 365 + d.marchYear % 400 / 4 - d.marchYear % 400 / 100 + d.marchDay) -
        719468 = d.toDayNumber := by omega
  rwa [whole] at number

end OfDate

/-- Day numbers are the proleptic Gregorian calendar, before year 0 and after it: every number has a
date, and dates and numbers determine each other; the first of January 1970 is day 0, and the day after
a date has the next number. In words of 64 bits this is so for all numbers that can be counted from the
beginning of an era at all: what is reckoned in words is then what is reckoned in integers. -/
theorem dayNumbers_gregorian :
    (∀ number, (ofDayNumber number).isValid = true ∧ (ofDayNumber number).toDayNumber = number) ∧
    (∀ d : CivilDate, d.isValid = true → ofDayNumber d.toDayNumber = d) ∧
    toDayNumber ⟨1970, 1, 1⟩ = 0 ∧
    (∀ d : CivilDate, d.isValid = true →
      d.next.isValid = true ∧ d.next.toDayNumber = d.toDayNumber + 1) ∧
    (∀ word : Int64, word.toInt + 719468 < 2 ^ 63 → dateOfWord word = ofDayNumber word.toInt) ∧
    ∀ (year : Int64) (month day : UInt32) (d : CivilDate), d = ⟨year.toInt, month.toNat, day.toNat⟩ →
      d.isValid = true → -2 ^ 63 ≤ d.toDayNumber → d.toDayNumber + 719468 < 2 ^ 63 →
        (wordOfDate year month day).toInt = d.toDayNumber := by
  refine ⟨?_, fun d => ofDayNumber_toDayNumber, rfl, ?_, ?_, ?_⟩
  · exact fun number => ⟨isValid_ofDayNumber number, toDayNumber_ofDayNumber number⟩
  · exact fun d valid => ⟨isValid_next valid, toDayNumber_next valid⟩
  · intro word fits
    have number := toDayNumber_ofDayNumber word.toInt
    exact dateOfWord_eq (isValid_ofDayNumber word.toInt) number.symm (number.symm ▸ fits)
  · rintro year month day d rfl valid low high
    exact wordOfDate_eq valid rfl rfl rfl low high

/-- The leap day that ends an era long before year 0, and the least and the greatest words. -/
theorem dayNumbers_gregorian_ends :
    isValid ⟨-400, 2, 29⟩ = true ∧ ofDayNumber (toDayNumber ⟨-400, 2, 29⟩) = ⟨-400, 2, 29⟩ ∧
    next ⟨-400, 2, 29⟩ = ⟨-400, 3, 1⟩ ∧
    toDayNumber ⟨-400, 3, 1⟩ = toDayNumber ⟨-400, 2, 29⟩ + 1 ∧
    dateOfWord Int64.minValue = ofDayNumber (-2 ^ 63) ∧
    dateOfWord (Int64.maxValue - 719468) = ofDayNumber (2 ^ 63 - 1 - 719468) ∧
    (wordOfDate (-400) 2 29).toInt = toDayNumber ⟨-400, 2, 29⟩ := by
  obtain ⟨_, back, _, step, words, dates⟩ := dayNumbers_gregorian
  have leap : isValid ⟨-400, 2, 29⟩ = true := by decide
  exact ⟨leap, back _ leap, by decide, (step _ leap).2, words _ (by decide), words _ (by decide),
    dates (-400) 2 29 _ rfl leap (by decide) (by decide)⟩

end Schemata.CivilDate

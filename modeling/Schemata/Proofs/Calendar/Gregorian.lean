import Mathlib.Tactic.IntervalCases
import Schemata.Calendar

/-! Day numbers are the proleptic Gregorian calendar. The reckoning is in years that begin in March, so
that the day that a leap year has more is the last of its year: a day number is the days before such a
year and the days before the day in it. From this, turning a date into its number and back again gives
the date. The other direction then needs no calculation: the calendar steps from each date to the next,
the numbers go up by one with it, and so every number is the number of a date. -/
namespace Schemata.CivilDate

/-- Days from the first of March of year 0 to the first of March of a year. -/
def daysBeforeYear (year : Int) : Int := 365 * year + year / 4 - year / 100 + year / 400

/-- Days from the first of March to the first of a month, March being month 0. -/
def daysBeforeMonth (month : Int) : Int := (153 * month + 2) / 5

/-- The year with which the last first of March fell. -/
def marchYear (d : CivilDate) : Int := if d.month ≤ 2 then d.year - 1 else d.year

def marchMonth (d : CivilDate) : Int := if d.month > 2 then (d.month : Int) - 3 else d.month + 9

/-- The days that have passed since the first of March. -/
def marchDay (d : CivilDate) : Int := daysBeforeMonth d.marchMonth + d.day - 1

/-- The year of an era on a day of the era. -/
def yearOfEra (day : Int) : Int := (day - day / 1460 + day / 36524 - day / 146096) / 365

/-- The day after: the next of its month, or the first of the next month, or of the next year. -/
def next (d : CivilDate) : CivilDate :=
  if d.day < daysInMonth d.year d.month then { d with day := d.day + 1 }
  else if d.month < 12 then ⟨d.year, d.month + 1, 1⟩
  else ⟨d.year + 1, 1, 1⟩

/-- The number of a date, counted on the calendar: up from the first of January 1970 or down from it. -/
inductive Numbered : CivilDate → Int → Prop where
  | epoch : Numbered ⟨1970, 1, 1⟩ 0
  | after : Numbered d number → Numbered d.next (number + 1)
  | before : d.isValid = true → Numbered d.next (number + 1) → Numbered d number

variable {d : CivilDate} {year other day number : Int}

theorem isValid_iff : d.isValid = true ↔
    (1 ≤ d.month ∧ d.month ≤ 12) ∧ 1 ≤ d.day ∧ d.day ≤ daysInMonth d.year d.month := by
  simp only [isValid, Bool.and_eq_true, decide_eq_true_eq]
  omega

theorem isLeapYear_iff (year : Int) :
    isLeapYear year = true ↔ 4 ∣ year ∧ (¬ 100 ∣ year ∨ 400 ∣ year) := by
  simp only [isLeapYear, Bool.or_eq_true, Bool.and_eq_true, beq_iff_eq, bne_iff_ne]
  omega

section Years

theorem daysBeforeYear_succ (year : Int) : daysBeforeYear (year + 1) =
    daysBeforeYear year + if isLeapYear (year + 1) then 366 else 365 := by
  unfold daysBeforeYear
  split
  · rename_i leap
    rw [isLeapYear_iff] at leap
    omega
  · rename_i common
    rw [isLeapYear_iff] at common
    omega

theorem daysBeforeYear_le (before : year < other) :
    daysBeforeYear (year + 1) ≤ daysBeforeYear other := by
  unfold daysBeforeYear
  omega

theorem daysBeforeYear_eras (era year : Int) :
    daysBeforeYear (era * 400 + year) = era * 146097 + daysBeforeYear year := by
  unfold daysBeforeYear
  omega

theorem daysBeforeYear_eq (year : Int) : daysBeforeYear year =
    year / 400 * 146097 + (365 * (year % 400) + year % 400 / 4 - year % 400 / 100) := by
  unfold daysBeforeYear
  omega

/-- An era has four centuries of 36524 days, a century 25 cycles of 1461, a cycle four years of 365. The
day that the last year of a cycle has more is missing at the end of a century, but not of an era. -/
theorem yearOfEra_of_parts {century cycle left past : Int} (ofEra : 0 ≤ century ∧ century < 4)
    (ofCentury : 0 ≤ cycle ∧ cycle < 25) (ofCycle : 0 ≤ left ∧ left < 4)
    (ofYear : 0 ≤ past ∧ (past < 365 ∨ past = 365 ∧ left = 3 ∧ (cycle < 24 ∨ century = 3)))
    (split : day = 36524 * century + 1461 * cycle + 365 * left + past) :
    yearOfEra day = 100 * century + 4 * cycle + left := by
  by_cases last : day = 146096
  · obtain ⟨rfl, rfl, rfl⟩ : century = 3 ∧ cycle = 24 ∧ left = 3 := by omega
    subst last
    rfl
  · have centuries : day / 36524 = century := by omega
    have eras : day / 146096 = 0 := by omega
    -- Short cycles fall behind by a day each; late in a century that makes one cycle more.
    have cycles : day / 1460 =
        25 * century + cycle + (24 * century + cycle + 365 * left + past) / 1460 := by omega
    unfold yearOfEra
    omega

theorem yearOfEra_eq (least : 0 ≤ year) (most : year < 400) (begun : daysBeforeYear year ≤ day)
    (current : day < daysBeforeYear (year + 1)) : yearOfEra day = year := by
  unfold daysBeforeYear at begun current
  have split := @yearOfEra_of_parts day (year / 100) (year % 100 / 4) (year % 4)
    (day - (36524 * (year / 100) + 1461 * (year % 100 / 4) + 365 * (year % 4)))
    (by omega) (by omega) (by omega) (by omega) (by omega)
  omega

/-- Eras have 146097 days, and the year of a day is found in its era. -/
theorem era_of_day (begun : daysBeforeYear year ≤ day) (current : day < daysBeforeYear (year + 1)) :
    day / 146097 = year / 400 ∧ yearOfEra (day - year / 400 * 146097) = year % 400 := by
  have least : 0 ≤ year % 400 := by omega
  have most : year % 400 < 400 := by omega
  have first := daysBeforeYear_eras (year / 400) (year % 400)
  have last := daysBeforeYear_eras (year / 400) (year % 400 + 1)
  rw [show year / 400 * 400 + year % 400 = year by omega] at first
  rw [show year / 400 * 400 + (year % 400 + 1) = year + 1 by omega] at last
  have low : 0 ≤ daysBeforeYear (year % 400) := by
    unfold daysBeforeYear
    omega
  have high : daysBeforeYear (year % 400 + 1) ≤ 146097 := daysBeforeYear_le most
  exact ⟨by omega, yearOfEra_eq least most (by omega) (by omega)⟩

end Years

theorem toDayNumber_eq (d : CivilDate) :
    d.toDayNumber = daysBeforeYear d.marchYear + d.marchDay - 719468 := by
  simp only [toDayNumber, marchDay, marchMonth, marchYear, daysBeforeYear, daysBeforeMonth]
  omega

/-- A month is as long as it is until the next one, and February until the end of its year. -/
theorem daysInMonth_eq (least : 1 ≤ d.month) (most : d.month ≤ 12) :
    (daysInMonth d.year d.month : Int) =
      (if d.marchMonth = 11 then daysBeforeYear (d.marchYear + 1) - daysBeforeYear d.marchYear
        else daysBeforeMonth (d.marchMonth + 1)) - daysBeforeMonth d.marchMonth := by
  obtain ⟨year, month, day⟩ := d
  dsimp only at least most
  by_cases february : month = 2
  · subst february
    have long := daysBeforeYear_succ (year - 1)
    rw [Int.sub_add_cancel] at long
    have march : marchYear ⟨year, 2, day⟩ = year - 1 := rfl
    have before : marchMonth ⟨year, 2, day⟩ = 11 := rfl
    rw [march, before, Int.sub_add_cancel, long, if_pos rfl]
    simp only [daysInMonth, daysBeforeMonth]
    split <;> omega
  · interval_cases month <;> simp [daysInMonth, marchMonth, daysBeforeMonth] at february ⊢

/-- A day of the calendar lies in its month, and the month in its year. -/
theorem marchDay_bounds (valid : d.isValid = true) :
    (0 ≤ d.marchMonth ∧ d.marchMonth < 12) ∧ daysBeforeMonth d.marchMonth ≤ d.marchDay ∧
      d.marchDay < daysBeforeMonth (d.marchMonth + 1) ∧
        daysBeforeYear d.marchYear + d.marchDay < daysBeforeYear (d.marchYear + 1) := by
  obtain ⟨⟨least, most⟩, begun, current⟩ := isValid_iff.mp valid
  have long := daysInMonth_eq least most
  have months : 0 ≤ d.marchMonth ∧ d.marchMonth < 12 := by
    unfold marchMonth
    split <;> omega
  have year := daysBeforeYear_succ d.marchYear
  unfold marchDay daysBeforeMonth at *
  split at long <;> split at year <;> omega

/-- The year of a date begins 306 days after the first of March of the year before. -/
theorem year_bounds (valid : d.isValid = true) :
    daysBeforeYear (d.year - 1) + 306 ≤ d.toDayNumber + 719468 ∧
      d.toDayNumber + 719468 < daysBeforeYear d.year + 306 := by
  obtain ⟨⟨least, most⟩, begun, _⟩ := isValid_iff.mp valid
  obtain ⟨months, reached, current, within⟩ := marchDay_bounds valid
  rw [toDayNumber_eq, Int.sub_add_cancel]
  unfold marchMonth daysBeforeMonth at *
  unfold marchYear at *
  by_cases winter : d.month ≤ 2
  · rw [if_pos winter, Int.sub_add_cancel] at *
    unfold daysBeforeYear at *
    omega
  · rw [if_neg winter] at *
    unfold daysBeforeYear at *
    omega

/-- The years that four digits write. -/
theorem year_iff (valid : d.isValid = true) :
    0 ≤ d.year ∧ d.year ≤ 9999 ↔ -719528 ≤ d.toDayNumber ∧ d.toDayNumber ≤ 2932896 := by
  have bounds := year_bounds valid
  unfold daysBeforeYear at bounds
  omega

/-- A day number taken apart, as dates of the calendar have it: into an era, a year of the era, a day of
the year and its month. -/
structure Parts (number : Int) (d : CivilDate) : Prop where
  era : (number + 719468) / 146097 = d.marchYear / 400
  year : yearOfEra (number + 719468 - d.marchYear / 400 * 146097) = d.marchYear % 400
  day : number + 719468 - d.marchYear / 400 * 146097 -
    (365 * (d.marchYear % 400) + d.marchYear % 400 / 4 - d.marchYear % 400 / 100) = d.marchDay
  month : (5 * d.marchDay + 2) / 153 = d.marchMonth

theorem parts_toDayNumber (valid : d.isValid = true) : Parts d.toDayNumber d := by
  obtain ⟨⟨first, last⟩, begun, current, within⟩ := marchDay_bounds valid
  have number : d.toDayNumber + 719468 = daysBeforeYear d.marchYear + d.marchDay := by
    rw [toDayNumber_eq, Int.sub_add_cancel]
  unfold daysBeforeMonth at begun current
  obtain ⟨era, year⟩ := era_of_day (by omega) within
  rw [← number] at era year
  rw [daysBeforeYear_eq] at number
  exact ⟨era, year, by omega, by omega⟩

/-- From years that begin in March back to years that begin in January. -/
theorem civil_of_march (valid : d.isValid = true) :
    let month := if d.marchMonth < 10 then d.marchMonth + 3 else d.marchMonth - 9
    let year := d.marchYear % 400 + d.marchYear / 400 * 400
    month = d.month ∧ (if month ≤ 2 then year + 1 else year) = d.year ∧
      d.marchDay - (153 * d.marchMonth + 2) / 5 + 1 = d.day := by
  obtain ⟨⟨least, most⟩, _⟩ := isValid_iff.mp valid
  simp only [marchDay, marchMonth, marchYear, daysBeforeMonth]
  omega

theorem ofDayNumber_toDayNumber (valid : d.isValid = true) : ofDayNumber d.toDayNumber = d := by
  obtain ⟨era, year, day, month⟩ := parts_toDayNumber valid
  obtain ⟨civilMonth, civilYear, civilDay⟩ := civil_of_march valid
  unfold yearOfEra at year
  rw [civilMonth] at civilYear
  simp only [ofDayNumber, era, year, day, month, civilMonth, civilYear, civilDay, Int.toNat_natCast]

theorem daysInMonth_pos (year : Int) (month : Nat) : 1 ≤ daysInMonth year month := by
  unfold daysInMonth
  split
  · split <;> decide
  all_goals decide

theorem daysInMonth_le (year : Int) (month : Nat) : daysInMonth year month ≤ 31 := by
  unfold daysInMonth
  split
  · split <;> decide
  all_goals decide

theorem isValid_next (valid : d.isValid = true) : d.next.isValid = true := by
  rw [isValid_iff] at valid ⊢
  unfold next
  split
  · dsimp only
    omega
  · split
    · have long := daysInMonth_pos d.year (d.month + 1)
      dsimp only
      omega
    · have long := daysInMonth_pos (d.year + 1) 1
      dsimp only
      omega

/-- The calendar and the day numbers go on together. -/
theorem toDayNumber_next (valid : d.isValid = true) :
    d.next.toDayNumber = d.toDayNumber + 1 := by
  obtain ⟨⟨least, most⟩, begun, current⟩ := isValid_iff.mp valid
  have long := daysInMonth_eq least most
  rw [toDayNumber_eq, toDayNumber_eq]
  obtain ⟨year, month, day⟩ := d
  simp only [marchDay, marchYear, marchMonth, daysBeforeMonth] at *
  unfold next
  dsimp only
  by_cases within : day < daysInMonth year month
  · rw [if_pos within]
    dsimp only
    omega
  rw [if_neg within]
  -- On the last day of a month the length of the month decides, and in February that of the year.
  by_cases february : month = 2
  · subst february
    simp only [Nat.reduceAdd, Nat.reduceLeDiff, Nat.reduceLT, gt_iff_lt, if_true, if_false,
      Int.sub_add_cancel] at long ⊢
    omega
  · rw [if_neg (by omega)] at long
    split
    · have same : (if month + 1 ≤ 2 then year - 1 else year) =
          if month ≤ 2 then year - 1 else year := by
        split <;> split <;> omega
      dsimp only
      rw [same]
      omega
    · obtain rfl : month = 12 := by omega
      simp only [Nat.reduceLeDiff, if_true, if_false, Int.add_sub_cancel]
      omega

/-- Every date is the day after another. -/
theorem exists_next_eq (valid : d.isValid = true) : ∃ e : CivilDate, e.isValid = true ∧ e.next = d := by
  obtain ⟨year, month, day⟩ := d
  obtain ⟨⟨least, most⟩, begun, current⟩ := isValid_iff.mp valid
  dsimp only at *
  by_cases first : day = 1
  · subst first
    by_cases january : month = 1
    · subst january
      refine ⟨⟨year - 1, 12, 31⟩, rfl, ?_⟩
      simp [next, daysInMonth]
    · refine ⟨⟨year, month - 1, daysInMonth year (month - 1)⟩, ?_, ?_⟩
      · have long := daysInMonth_pos year (month - 1)
        rw [isValid_iff]
        dsimp only
        omega
      · have before : month - 1 < 12 := by omega
        have after : month - 1 + 1 = month := by omega
        simp only [next, Nat.lt_irrefl, if_false, before, if_true, after]
  · refine ⟨⟨year, month, day - 1⟩, ?_, ?_⟩
    · rw [isValid_iff]
      dsimp only
      omega
    · have before : day - 1 < daysInMonth year month := by omega
      have after : day - 1 + 1 = day := by omega
      simp only [next, before, if_true, after]

theorem exists_toDayNumber_eq (number : Int) :
    ∃ d : CivilDate, d.isValid = true ∧ d.toDayNumber = number := by
  induction number using Int.induction_on with
  | zero => exact ⟨⟨1970, 1, 1⟩, rfl, rfl⟩
  | succ n ih =>
    obtain ⟨d, valid, same⟩ := ih
    exact ⟨d.next, isValid_next valid, by rw [toDayNumber_next valid, same]⟩
  | pred n ih =>
    obtain ⟨d, valid, same⟩ := ih
    obtain ⟨e, earlier, rfl⟩ := exists_next_eq valid
    rw [toDayNumber_next earlier] at same
    exact ⟨e, earlier, by omega⟩

theorem isValid_ofDayNumber (number : Int) : (ofDayNumber number).isValid = true := by
  obtain ⟨d, valid, rfl⟩ := exists_toDayNumber_eq number
  rwa [ofDayNumber_toDayNumber valid]

theorem toDayNumber_ofDayNumber (number : Int) : (ofDayNumber number).toDayNumber = number := by
  obtain ⟨d, valid, rfl⟩ := exists_toDayNumber_eq number
  rw [ofDayNumber_toDayNumber valid]

theorem next_ofDayNumber (number : Int) : (ofDayNumber number).next = ofDayNumber (number + 1) := by
  have valid := isValid_ofDayNumber number
  rw [← ofDayNumber_toDayNumber (isValid_next valid), toDayNumber_next valid,
    toDayNumber_ofDayNumber]

theorem numbered_ofDayNumber (number : Int) : Numbered (ofDayNumber number) number := by
  induction number using Int.induction_on with
  | zero => exact .epoch
  | succ n ih =>
    rw [← next_ofDayNumber]
    exact ih.after
  | pred n ih =>
    refine .before (isValid_ofDayNumber _) ?_
    rwa [next_ofDayNumber, Int.sub_add_cancel]

theorem numbered_iff : Numbered d number ↔ d.isValid = true ∧ d.toDayNumber = number := by
  constructor
  · intro counted
    induction counted with
    | epoch => exact ⟨rfl, rfl⟩
    | after _ ih => exact ⟨isValid_next ih.1, by rw [toDayNumber_next ih.1, ih.2]⟩
    | before valid _ ih =>
      rw [toDayNumber_next valid] at ih
      exact ⟨valid, by omega⟩
  · rintro ⟨valid, rfl⟩
    have counted := numbered_ofDayNumber d.toDayNumber
    rwa [ofDayNumber_toDayNumber valid] at counted

end Schemata.CivilDate

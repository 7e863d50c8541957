import Mathlib.Data.List.TakeWhile
import Schemata.Timestamp
import Schemata.Proofs.Calendar.Gregorian
import Schemata.Proofs.Number.Rounding
import Schemata.Proofs.Text

/-! ISO-8601 texts are read exactly. The texts are described by what they say, from the date to the zone:
each part of a stamp has its text and the bounds that it must keep to. Each reader then takes the text
of one legal part in front of any rest, and only that; a part that may be missing is taken unless the
rest could not go on with it. -/
namespace Schemata.Timestamp

/-- The end of a clock time: nothing, a letter for UTC, or how far the clock is from UTC. -/
inductive Zone where
  | omitted
  | utc (lower : Bool)
  | offset (behind : Bool) (hours minutes : Nat) (colon : Bool)

/-- Seconds of a clock time, with the digits of a fraction if there is one. -/
structure Seconds where
  second : Nat
  fraction : Option Text

structure Clock where
  separator : UInt8
  hour : Nat
  minute : Nat
  seconds : Option Seconds
  zone : Zone

/-- An ISO-8601 text: a date, alone or with a clock time. -/
structure Stamp where
  date : CivilDate
  clock : Option Clock

namespace Zone

def Legal : Zone → Prop
  | offset _ hours minutes _ => hours ≤ 23 ∧ minutes ≤ 59
  | _ => True

def text : Zone → Text
  | omitted => []
  | utc lower => [if lower then 122 else 90]
  | offset behind hours minutes colon => (if behind then 45 else 43) ::
      (twoDigits hours ++ ((if colon then [58] else []) ++ twoDigits minutes))

/-- How far the clock is ahead of UTC. -/
def ahead : Zone → Int
  | offset behind hours minutes _ =>
    if behind then -((hours * 60 + minutes : Nat) : Int) else (hours * 60 + minutes : Nat)
  | _ => 0

end Zone

namespace Seconds

/-- Digits behind the point, at least one. -/
def IsFraction (digits : Text) : Prop := digits ≠ [] ∧ digits.all Text.isDigit = true

structure Legal (s : Seconds) : Prop where
  second : s.second ≤ 59
  fraction : ∀ digits ∈ s.fraction, IsFraction digits

def text (s : Seconds) : Text := 58 :: (twoDigits s.second ++ s.fraction.elim [] (46 :: ·))

/-- The whole thousandths in a decimal fraction. -/
def thousandths (digits : Text) : Nat := digits.toNat * 1000 / 10 ^ digits.length

def millis (s : Seconds) : Nat := s.second * 1000 + s.fraction.elim 0 thousandths

end Seconds

namespace Clock

structure Legal (c : Clock) : Prop where
  separator : c.separator = 84 ∨ c.separator = 116 ∨ c.separator = 32
  hour : c.hour ≤ 23
  minute : c.minute ≤ 59
  seconds : ∀ seconds ∈ c.seconds, seconds.Legal
  zone : c.zone.Legal

def text (c : Clock) : Text := c.separator :: (twoDigits c.hour ++ 58 :: (twoDigits c.minute ++
  (c.seconds.elim [] Seconds.text ++ c.zone.text)))

/-- The milliseconds since midnight in UTC; below zero while it is still the day before there. -/
def millis (c : Clock) : Int := ((c.hour * 60 + c.minute) * 60000 +
  c.seconds.elim 0 Seconds.millis : Nat) - c.zone.ahead * 60000

end Clock

namespace Stamp

structure Legal (s : Stamp) : Prop where
  date : s.date.isValid = true
  year : 0 ≤ s.date.year ∧ s.date.year ≤ 9999
  clock : ∀ clock ∈ s.clock, clock.Legal

def text (s : Stamp) : Text := Text.padZeros 4 (Text.ofNat s.date.year.toNat) ++
  45 :: (twoDigits s.date.month ++ 45 :: (twoDigits s.date.day ++ s.clock.elim [] Clock.text))

/-- The instant that a text tells: the days up to its date, counted on the calendar, and the time. -/
def Tells (s : Stamp) (millis : Int) : Prop :=
  ∃ day, s.date.Numbered day ∧ millis = 86400000 * day + s.clock.elim 0 Clock.millis

end Stamp

variable {t rest digits : Text} {value : Int} {n : Nat} {b : UInt8}

theorem takeDigits?_iff : t.takeDigits? 2 = some (n, rest) ↔ n < 100 ∧ t = twoDigits n ++ rest :=
  Text.takeDigits?_eq_some_iff (by decide)

theorem takeDigits?_twoDigits (small : n < 100) (rest : Text) :
    (twoDigits n ++ rest).takeDigits? 2 = some (n, rest) :=
  takeDigits?_iff.mpr ⟨small, rfl⟩

theorem skip?_twoDigits (n : Nat) (rest : Text) (other : Text.isDigit b = false) :
    (twoDigits n ++ rest).skip? b = none := by
  have run := Text.all_isDigit_padZeros 2 (Text.all_isDigit_ofNat n)
  obtain ⟨c, u, split⟩ := List.exists_cons_of_ne_nil (Text.padZeros_ne_nil 2 (Text.ofNat_ne_nil n))
  rw [split, List.all_cons, Bool.and_eq_true] at run
  have different : c ≠ b := by
    rintro rfl
    cases other.symm.trans run.1
  rw [twoDigits, split, List.cons_append, Text.skip?, if_neg different]

section Zones

theorem exists_colon (t : Text) :
    ∃ colon : Bool, t = (if colon then [58] else []) ++ (t.skip? 58).getD t := by
  cases skipped : t.skip? 58 with
  | none => exact ⟨false, rfl⟩
  | some rest => exact ⟨true, Text.skip?_eq_some_iff.mp skipped⟩

theorem readOffsetMinutes?_eq_some_iff : readOffsetMinutes? t = some (n, rest) ↔
    ∃ hours minutes, ∃ colon : Bool, (hours ≤ 23 ∧ minutes ≤ 59) ∧ hours * 60 + minutes = n ∧
      twoDigits hours ++ ((if colon then [58] else []) ++ (twoDigits minutes ++ rest)) = t := by
  simp only [readOffsetMinutes?, Option.bind_eq_bind, Option.bind_eq_some_iff, Prod.exists,
    takeDigits?_iff]
  constructor
  · rintro ⟨hours, u, ⟨_, rfl⟩, minutes, v, ⟨_, same⟩, read⟩
    split at read
    · rename_i bounds
      cases read
      obtain ⟨colon, parts⟩ := exists_colon u
      rw [same] at parts
      exact ⟨hours, minutes, colon, bounds, rfl, by rw [parts]⟩
    · cases read
  · rintro ⟨hours, minutes, colon, bounds, rfl, rfl⟩
    refine ⟨hours, _, ⟨by omega, rfl⟩, minutes, rest, ⟨by omega, ?_⟩, by rw [if_pos bounds]⟩
    cases colon with
    | true => rfl
    | false =>
      simp only [Bool.false_eq_true, if_false, List.nil_append]
      rw [skip?_twoDigits minutes rest (by decide)]
      rfl

/-- A text that ends with a zone is read to its end. -/
theorem readZone?_eq_some_iff : readZone? t = some (value, []) ↔
    ∃ zone : Zone, zone.Legal ∧ zone.text = t ∧ zone.ahead = value := by
  constructor
  · intro read
    cases t with
    | nil =>
      cases read
      exact ⟨.omitted, trivial, rfl, rfl⟩
    | cons b t =>
      simp only [readZone?] at read
      split_ifs at read with letter plus minus
      · cases read
        rcases letter with rfl | rfl
        · exact ⟨.utc false, trivial, rfl, rfl⟩
        · exact ⟨.utc true, trivial, rfl, rfl⟩
      · obtain ⟨⟨n, rest⟩, offset, same⟩ := Option.map_eq_some_iff.mp read
        cases same
        obtain ⟨hours, minutes, colon, bounds, rfl, rfl⟩ := readOffsetMinutes?_eq_some_iff.mp offset
        subst plus
        exact ⟨.offset false hours minutes colon, bounds, by simp [Zone.text], rfl⟩
      · obtain ⟨⟨n, rest⟩, offset, same⟩ := Option.map_eq_some_iff.mp read
        cases same
        obtain ⟨hours, minutes, colon, bounds, rfl, rfl⟩ := readOffsetMinutes?_eq_some_iff.mp offset
        subst minus
        exact ⟨.offset true hours minutes colon, bounds, by simp [Zone.text], rfl⟩
      · cases read
  · rintro ⟨zone, legal, rfl, rfl⟩
    cases zone with
    | omitted => rfl
    | utc lower => cases lower <;> rfl
    | offset behind hours minutes colon =>
      have read : readOffsetMinutes?
          (twoDigits hours ++ ((if colon then [58] else []) ++ twoDigits minutes)) =
            some (hours * 60 + minutes, []) :=
        readOffsetMinutes?_eq_some_iff.mpr ⟨hours, minutes, colon, legal, rfl, by rw [List.append_nil]⟩
      cases behind <;> simp [Zone.text, readZone?, read, Zone.ahead]

end Zones

section Clocks

/-- Three digits and a cut, or zeros behind fewer: the whole thousandths of the fraction. -/
theorem fractionMillis_eq (run : digits.all Text.isDigit = true) :
    fractionMillis digits = Seconds.thousandths digits := by
  unfold Seconds.thousandths
  by_cases long : 3 ≤ digits.length
  · have split := Text.toNat_append (digits.take 3) (digits.drop 3)
    have small := Text.toNat_lt (digits.drop 3) (Text.all_isDigit_drop run 3)
    rw [List.take_append_drop, List.length_drop] at split
    rw [List.length_drop, Nat.pow_eq] at small
    have size : 10 ^ digits.length = 10 ^ (digits.length - 3) * 1000 := by
      rw [show (1000 : Nat) = 10 ^ 3 by decide, ← Nat.pow_add, Nat.sub_add_cancel long]
    have taken : (digits ++ [48, 48, 48]).take 3 = digits.take 3 :=
      List.take_append_of_le_length long
    rw [fractionMillis, taken, size, Nat.mul_div_mul_right _ _ (by decide), split, Nat.mul_comm,
      Nat.mul_add_div (Nat.pow_pos (by decide)), Nat.div_eq_of_lt small, Nat.add_zero]
  · match digits with
    | [] => rfl
    | [a] =>
      simp [fractionMillis, Text.toNat]
      omega
    | [a, b] =>
      simp [fractionMillis, Text.toNat]
      omega
    | a :: b :: c :: rest => simp at long

/-- Nothing that seconds could go on with. -/
def Closes (rest : Text) : Prop := ∀ b ∈ rest.head?, Text.isDigit b = false ∧ b ≠ 58 ∧ b ≠ 46

theorem Closes.skip? (closes : Closes rest) (mark : b = 58 ∨ b = 46) : rest.skip? b = none := by
  cases rest with
  | nil => rfl
  | cons c u =>
    obtain ⟨_, colon, point⟩ := closes c rfl
    rw [Text.skip?, if_neg]
    rcases mark with rfl | rfl <;> assumption

theorem Zone.closes (zone : Zone) : Closes zone.text := by
  intro b first
  cases zone with
  | omitted => cases first
  | utc lower => cases lower <;> cases first <;> decide
  | offset behind hours minutes colon => cases behind <;> cases first <;> decide

theorem readFraction?_sound (read : readFraction? t = some (n, rest)) :
    ∃ fraction : Option Text, (∀ digits ∈ fraction, Seconds.IsFraction digits) ∧
      t = fraction.elim [] (46 :: ·) ++ rest ∧ n = fraction.elim 0 Seconds.thousandths := by
  unfold readFraction? at read
  split at read
  · cases read
    exact ⟨none, nofun, rfl, rfl⟩
  · rename_i u skipped
    dsimp only at read
    split at read
    · cases read
    · rename_i filled
      cases read
      have run : (u.takeWhile Text.isDigit).all Text.isDigit = true :=
        List.all_eq_true.mpr fun _ member => List.mem_takeWhile_imp member
      refine ⟨some (u.takeWhile Text.isDigit), ?_, ?_, fractionMillis_eq run⟩
      · rintro _ ⟨⟩
        exact ⟨mt List.isEmpty_iff.mpr filled, run⟩
      · rw [Text.skip?_eq_some_iff.mp skipped, Option.elim, List.cons_append,
          List.takeWhile_append_dropWhile]

theorem readFraction?_complete {fraction : Option Text}
    (legal : ∀ digits ∈ fraction, Seconds.IsFraction digits)
    (closes : Closes rest) : readFraction? (fraction.elim [] (46 :: ·) ++ rest) =
      some (fraction.elim 0 Seconds.thousandths, rest) := by
  cases fraction with
  | none =>
    rw [Option.elim, List.nil_append, readFraction?, closes.skip? (.inr rfl)]
    rfl
  | some digits =>
    obtain ⟨filled, run⟩ := legal digits rfl
    have ends : ∀ b ∈ rest.head?, Text.isDigit b = false := fun b first => (closes b first).1
    have taken := Text.takeWhile_isDigit_append run ends
    have left := Text.dropWhile_isDigit_append run ends
    simp [readFraction?, Text.skip?, taken, left, filled, fractionMillis_eq run]

theorem readSeconds?_sound (read : readSeconds? t = some (n, rest)) :
    ∃ seconds : Option Seconds, (∀ s ∈ seconds, s.Legal) ∧
      t = seconds.elim [] Seconds.text ++ rest ∧ n = seconds.elim 0 Seconds.millis := by
  unfold readSeconds? at read
  split at read
  · cases read
    exact ⟨none, nofun, rfl, rfl⟩
  · rename_i u skipped
    simp only [Option.bind_eq_bind, Option.bind_eq_some_iff, Prod.exists, takeDigits?_iff] at read
    obtain ⟨second, _, ⟨_, rfl⟩, millis, _, fractional, read⟩ := read
    obtain ⟨fraction, legal, rfl, rfl⟩ := readFraction?_sound fractional
    split at read
    · rename_i bound
      cases read
      refine ⟨some ⟨second, fraction⟩, ?_, ?_, rfl⟩
      · rintro _ ⟨⟩
        exact ⟨bound, legal⟩
      · rw [Text.skip?_eq_some_iff.mp skipped]
        simp [Seconds.text]
    · cases read

theorem readSeconds?_complete {seconds : Option Seconds} (legal : ∀ s ∈ seconds, s.Legal)
    (closes : Closes rest) : readSeconds? (seconds.elim [] Seconds.text ++ rest) =
      some (seconds.elim 0 Seconds.millis, rest) := by
  cases seconds with
  | none =>
    rw [Option.elim, List.nil_append, readSeconds?, closes.skip? (.inl rfl)]
    rfl
  | some s =>
    obtain ⟨bound, legal⟩ := legal s rfl
    have second := takeDigits?_twoDigits (n := s.second) (by omega) (s.fraction.elim [] (46 :: ·) ++ rest)
    have fraction := readFraction?_complete legal closes
    simp [readSeconds?, Text.skip?, Seconds.text, second, fraction, bound, Seconds.millis]

theorem readClock?_sound (read : readClock? t = some (n, rest)) :
    ∃ hour minute, ∃ seconds : Option Seconds, (hour ≤ 23 ∧ minute ≤ 59 ∧ ∀ s ∈ seconds, s.Legal) ∧
      t = twoDigits hour ++ 58 :: (twoDigits minute ++ (seconds.elim [] Seconds.text ++ rest)) ∧
        n = (hour * 60 + minute) * 60000 + seconds.elim 0 Seconds.millis := by
  simp only [readClock?, Option.bind_eq_bind, Option.bind_eq_some_iff, Prod.exists, takeDigits?_iff,
    Text.skip?_eq_some_iff] at read
  obtain ⟨hour, _, ⟨_, rfl⟩, _, rfl, minute, _, ⟨_, rfl⟩, millis, _, read, last⟩ := read
  obtain ⟨seconds, legal, rfl, rfl⟩ := readSeconds?_sound read
  split at last
  · rename_i bounds
    cases last
    exact ⟨hour, minute, seconds, ⟨bounds.1, bounds.2, legal⟩, rfl, rfl⟩
  · cases last

theorem readClock?_complete {hour minute : Nat} {seconds : Option Seconds} (hours : hour ≤ 23)
    (minutes : minute ≤ 59) (legal : ∀ s ∈ seconds, s.Legal) (closes : Closes rest) :
    readClock? (twoDigits hour ++ 58 :: (twoDigits minute ++ (seconds.elim [] Seconds.text ++ rest))) =
      some ((hour * 60 + minute) * 60000 + seconds.elim 0 Seconds.millis, rest) := by
  have first := takeDigits?_twoDigits (n := hour) (by omega)
    (58 :: (twoDigits minute ++ (seconds.elim [] Seconds.text ++ rest)))
  have second := takeDigits?_twoDigits (n := minute) (by omega) (seconds.elim [] Seconds.text ++ rest)
  simp [readClock?, first, Text.skip?, second, readSeconds?_complete legal closes, hours, minutes]

/-- A text that goes on with a clock time or with nothing is read to its end. -/
theorem readTime?_eq_some_iff : readTime? t = some (value, []) ↔
    ∃ clock : Option Clock, (∀ c ∈ clock, c.Legal) ∧ clock.elim [] Clock.text = t ∧
      clock.elim 0 Clock.millis = value := by
  constructor
  · intro read
    cases t with
    | nil =>
      cases read
      exact ⟨none, nofun, rfl, rfl⟩
    | cons b t =>
      simp only [readTime?] at read
      split at read
      · rename_i separator
        simp only [Option.bind_eq_bind, Option.bind_eq_some_iff, Prod.exists] at read
        obtain ⟨millis, u, time, offset, _, place, same⟩ := read
        cases same
        obtain ⟨hour, minute, seconds, ⟨hours, minutes, legal⟩, rfl, rfl⟩ := readClock?_sound time
        obtain ⟨zone, allowed, rfl, rfl⟩ := readZone?_eq_some_iff.mp place
        refine ⟨some ⟨b, hour, minute, seconds, zone⟩, ?_, rfl, rfl⟩
        rintro _ ⟨⟩
        exact ⟨separator, hours, minutes, legal, allowed⟩
      · cases read
  · rintro ⟨clock, legal, rfl, rfl⟩
    cases clock with
    | none => rfl
    | some c =>
      obtain ⟨separator, hours, minutes, seconds, zone⟩ := legal c rfl
      have time := readClock?_complete hours minutes seconds c.zone.closes
      have place := readZone?_eq_some_iff.mpr ⟨c.zone, zone, rfl, rfl⟩
      simp [Clock.text, readTime?, separator, time, place, Clock.millis]

end Clocks

theorem readDate?_eq_some_iff {date : CivilDate} : readDate? t = some (date, rest) ↔
    date.isValid = true ∧ (0 ≤ date.year ∧ date.year ≤ 9999) ∧
      t = Text.padZeros 4 (Text.ofNat date.year.toNat) ++
        45 :: (twoDigits date.month ++ 45 :: (twoDigits date.day ++ rest)) := by
  simp only [readDate?, Option.bind_eq_bind, Option.bind_eq_some_iff, Prod.exists, takeDigits?_iff,
    Text.skip?_eq_some_iff, Text.takeDigits?_eq_some_iff (show 0 < 4 by decide)]
  constructor
  · rintro ⟨year, _, ⟨small, rfl⟩, _, rfl, month, _, ⟨_, rfl⟩, _, rfl, day, _, ⟨_, rfl⟩, read⟩
    split at read
    · rename_i valid
      cases read
      exact ⟨valid, by dsimp only; omega, rfl⟩
    · cases read
  · rintro ⟨valid, years, rfl⟩
    obtain ⟨⟨_, december⟩, _, last⟩ := CivilDate.isValid_iff.mp valid
    have short := CivilDate.daysInMonth_le date.year date.month
    have same : (⟨date.year.toNat, date.month, date.day⟩ : CivilDate) = date := by
      rw [Int.toNat_of_nonneg years.1]
    exact ⟨date.year.toNat, _, ⟨by omega, rfl⟩, _, rfl, date.month, _, ⟨by omega, rfl⟩, _, rfl,
      date.day, rest, ⟨by omega, rfl⟩, by rw [same, if_pos valid]⟩

section Stamps

/-- A text that is read is a legal stamp, and what is read is its milliseconds. -/
theorem read?_eq_some_iff : read? t = some value ↔ ∃ s : Stamp, s.Legal ∧ s.text = t ∧
    value = s.date.toDayNumber * millisPerDay + s.clock.elim 0 Clock.millis := by
  simp only [read?, Option.bind_eq_bind, Option.bind_eq_some_iff, Prod.exists,
    readDate?_eq_some_iff]
  constructor
  · rintro ⟨date, _, ⟨valid, years, rfl⟩, millis, u, time, last⟩
    split at last
    · rename_i ended
      cases last
      obtain rfl := List.isEmpty_iff.mp ended
      obtain ⟨clock, legal, rfl, rfl⟩ := readTime?_eq_some_iff.mp time
      exact ⟨⟨date, clock⟩, ⟨valid, years, legal⟩, rfl, rfl⟩
    · cases last
  · rintro ⟨s, legal, rfl, rfl⟩
    exact ⟨s.date, _, ⟨legal.date, legal.year, rfl⟩, _, [],
      readTime?_eq_some_iff.mpr ⟨s.clock, legal.clock, rfl, rfl⟩, rfl⟩

theorem Stamp.tells_iff (s : Stamp) (legal : s.Legal) : s.Tells value ↔
    value = s.date.toDayNumber * millisPerDay + s.clock.elim 0 Clock.millis := by
  unfold Stamp.Tells millisPerDay
  constructor
  · rintro ⟨day, counted, rfl⟩
    rw [(CivilDate.numbered_iff.mp counted).2, Int.mul_comm]
  · rintro rfl
    exact ⟨_, CivilDate.numbered_iff.mpr ⟨legal.date, rfl⟩, by rw [Int.mul_comm]⟩

theorem Seconds.millis_lt {s : Seconds} (legal : s.Legal) : s.millis < 60000 := by
  have second := legal.second
  unfold millis
  cases same : s.fraction with
  | none =>
    rw [Option.elim]
    omega
  | some digits =>
    have small := Text.toNat_lt digits (legal.fraction digits same).2
    have fraction : thousandths digits < 1000 :=
      Nat.div_lt_of_lt_mul (Nat.mul_lt_mul_of_pos_right small (by decide))
    rw [Option.elim]
    omega

theorem Clock.millis_bounds {c : Clock} (legal : c.Legal) :
    -86400000 < c.millis ∧ c.millis < 172800000 := by
  obtain ⟨_, hour, minute, seconds, zone⟩ := legal
  have rest : c.seconds.elim 0 Seconds.millis < 60000 := by
    cases same : c.seconds with
    | none => decide
    | some s => exact Seconds.millis_lt (seconds s same)
  have ahead : -1440 < c.zone.ahead ∧ c.zone.ahead < 1440 := by
    cases same : c.zone with
    | omitted | utc =>
      dsimp only [Zone.ahead]
      decide
    | offset behind hours minutes colon =>
      rw [same, Zone.Legal] at zone
      unfold Zone.ahead
      dsimp only
      split <;> omega
  unfold millis
  omega

/-- The instants of all legal stamps are exact numbers. -/
theorem Stamp.natAbs_le {s : Stamp} (legal : s.Legal) (tells : s.Tells value) :
    value.natAbs ≤ 2 ^ 53 := by
  have days := (CivilDate.year_iff legal.date).mp legal.year
  have clock : -86400000 < s.clock.elim 0 Clock.millis ∧
      s.clock.elim 0 Clock.millis < 172800000 := by
    cases same : s.clock with
    | none => decide
    | some c => exact Clock.millis_bounds (legal.clock c same)
  rw [tells_iff s legal, millisPerDay] at tells
  omega

theorem parse?_text {s : Stamp} (legal : s.Legal) (tells : s.Tells value) :
    parse? s.text = some (.ofInt value) := by
  have read := read?_eq_some_iff.mpr ⟨s, legal, rfl, (s.tells_iff legal).mp tells⟩
  rw [parse?, read]
  rfl

end Stamps

/-- Read are exactly the legal ISO-8601 texts, and each as the instant that it tells: the days up to its
date counted on the calendar, with the time since midnight less the offset in milliseconds, as an exact
number. Texts that tell one instant in different places are read as the same number. -/
theorem parse?_stamps :
    (∀ t x, parse? t = some x ↔ ∃ (s : Stamp) (millis : Int), s.Legal ∧ s.text = t ∧
      s.Tells millis ∧ x = .ofInt millis ∧ x.place? = some (millis * Binary64.unitsPerOne)) ∧
    ∀ (s s' : Stamp) (millis : Int), s.Legal → s'.Legal → s.Tells millis → s'.Tells millis →
      parse? s.text = some (.ofInt millis) ∧ parse? s'.text = parse? s.text := by
  constructor
  · intro t x
    constructor
    · intro parsed
      obtain ⟨millis, read, rfl⟩ := Option.map_eq_some_iff.mp parsed
      obtain ⟨s, legal, same, count⟩ := read?_eq_some_iff.mp read
      have tells := (s.tells_iff legal).mpr count
      exact ⟨s, millis, legal, same, tells, rfl,
        Binary64.place?_ofInt (Stamp.natAbs_le legal tells)⟩
    · rintro ⟨s, millis, legal, rfl, tells, rfl, _⟩
      exact parse?_text legal tells
  · intro s s' millis legal legal' tells tells'
    have parsed := parse?_text legal tells
    exact ⟨parsed, (parse?_text legal' tells').trans parsed.symm⟩

/-- One instant, told behind UTC on a leap day, and in UTC on the day after with fewer digits. -/
theorem parse?_stamps_leapDay :
    parse? (Text.ofString "2024-02-29T23:30:15.9876-0130") = some (.ofInt 1709254815987) ∧
    parse? (Text.ofString "2024-03-01 01:00:15.987z") =
      parse? (Text.ofString "2024-02-29T23:30:15.9876-0130") := by
  let behind : Stamp := ⟨⟨2024, 2, 29⟩, some ⟨84, 23, 30, some ⟨15, some [57, 56, 55, 54]⟩,
    .offset true 1 30 false⟩⟩
  let utc : Stamp := ⟨⟨2024, 3, 1⟩, some ⟨32, 1, 0, some ⟨15, some [57, 56, 55]⟩, .utc true⟩⟩
  have legal : behind.Legal := by
    refine ⟨by decide, by decide, ?_⟩
    rintro _ ⟨⟩
    refine ⟨by decide, by decide, by decide, ?_, ⟨by decide, by decide⟩⟩
    rintro _ ⟨⟩
    exact ⟨by decide, by rintro _ ⟨⟩; exact ⟨by decide, rfl⟩⟩
  have legal' : utc.Legal := by
    refine ⟨by decide, by decide, ?_⟩
    rintro _ ⟨⟩
    refine ⟨by decide, by decide, by decide, ?_, trivial⟩
    rintro _ ⟨⟩
    exact ⟨by decide, by rintro _ ⟨⟩; exact ⟨by decide, rfl⟩⟩
  have text : behind.text = Text.ofString "2024-02-29T23:30:15.9876-0130" := by cbv
  have text' : utc.text = Text.ofString "2024-03-01 01:00:15.987z" := by cbv
  have tells : behind.Tells 1709254815987 := (behind.tells_iff legal).mpr (by decide)
  have tells' : utc.Tells 1709254815987 := (utc.tells_iff legal').mpr (by decide)
  have same := parse?_stamps.2 behind utc _ legal legal' tells tells'
  rwa [text, text'] at same

end Schemata.Timestamp

import SqlSelect.Calendar.Timestamp
import Mathlib.Order.Basic

/-!
# Timestamps as points in time

The days of the calendar are numbered without a gap: the day after has the next number, and no two
days share one (`Date.eq_of_number_eq`). So a timestamp is determined by the number of its minute
and by second and nanosecond within it (`Timestamp.eq_iff_minutes`). Taking an offset off a local
time takes it off the number of the minute, whatever days, months and years it crosses.
-/

namespace SqlSelect

namespace Calendar

/-! ## Counting days -/

/-- The number of days in a year. -/
def daysInYear (year : Int) : Nat :=
  if isLeapYear year then 366 else 365

/-- The number of days from the start of the year 0 to the start of a year, less than zero for the
years before. Behind `365 * year` stand the years divisible by 4, by 100 and by 400. -/
def daysBeforeYear (year : Int) : Int :=
  365 * year + (year + 3) / 4 - (year + 99) / 100 + (year + 399) / 400

/-- The number of days in the months of a year that come before a month. -/
def daysBeforeMonth (year : Int) : Nat → Nat
  | 0 => 0
  | 1 => 0
  | month + 2 => daysBeforeMonth year (month + 1) + daysInMonth year (month + 1)

theorem daysBeforeYear_succ (year : Int) :
    daysBeforeYear (year + 1) = daysBeforeYear year + daysInYear year := by
  have hleap : isLeapYear year = true ↔ year % 4 = 0 ∧ (year % 100 ≠ 0 ∨ year % 400 = 0) := by
    simp [isLeapYear]
  rw [daysBeforeYear, daysBeforeYear, daysInYear]
  split <;> rename_i h <;> rw [hleap] at h <;> omega

theorem daysBeforeYear_le {year year' : Int} (h : year ≤ year') :
    daysBeforeYear year ≤ daysBeforeYear year' := by
  rw [daysBeforeYear, daysBeforeYear]
  omega

theorem daysBeforeMonth_succ (year : Int) {month : Nat} (h : 1 ≤ month) :
    daysBeforeMonth year (month + 1) = daysBeforeMonth year month + daysInMonth year month := by
  obtain ⟨month, rfl⟩ := Nat.exists_eq_add_of_le' h
  rfl

theorem daysBeforeMonth_le (year : Int) {month month' : Nat} (h : month ≤ month') :
    daysBeforeMonth year month ≤ daysBeforeMonth year month' := by
  induction h with
  | refl => exact Nat.le_refl _
  | @step month' _ ih =>
    refine Nat.le_trans ih ?_
    cases month' with
    | zero => exact Nat.le_refl _
    | succ month' => exact Nat.le_add_right _ _

/-- Behind December the year is full. -/
theorem daysBeforeMonth_thirteen (year : Int) : daysBeforeMonth year 13 = daysInYear year := by
  rw [daysInYear]
  cases h : isLeapYear year <;> simp [daysBeforeMonth, daysInMonth, h]

end Calendar

open Calendar

/-! ## Days -/

namespace Date

/-- The number of a day within its year, from 1. -/
def ordinal (d : Date) : Nat := daysBeforeMonth d.year d.month + d.day

/-- The number of a day, one more for each day. -/
def number (d : Date) : Int := daysBeforeYear d.year + d.ordinal

theorem number_eq (d : Date) :
    d.number = daysBeforeYear d.year + (daysBeforeMonth d.year d.month + d.day : Nat) := rfl

theorem of?_eq_some {year : Int} {month day : Nat} {d : Date} (h : of? year month day = some d) :
    d.year = year ∧ d.month = month ∧ d.day = day := by
  rw [of?] at h
  split at h
  · cases h
    exact ⟨rfl, rfl, rfl⟩
  · cases h

theorem number_of? {year : Int} {month day : Nat} {d : Date} (h : of? year month day = some d) :
    d.number = daysBeforeYear year + (daysBeforeMonth year month + day : Nat) := by
  obtain ⟨rfl, rfl, rfl⟩ := of?_eq_some h
  exact d.number_eq

theorem number_next? {d e : Date} (h : d.next? = some e) : e.number = d.number + 1 := by
  obtain ⟨-, -, hfirst, hlast, -, hday⟩ := d.valid
  have hmonth := daysBeforeMonth_succ d.year hfirst
  rw [d.number_eq]
  unfold next? at h
  split at h
  · rw [number_of? h]
    omega
  · split at h
    · rw [number_of? h]
      omega
    · -- the last day of December is followed by the first of January
      have hend : d.day = daysInMonth d.year d.month := by omega
      have hyear : daysBeforeMonth d.year (12 + 1) = daysInYear d.year :=
        daysBeforeMonth_thirteen d.year
      rw [show d.month = 12 by omega] at hmonth hend ⊢
      rw [number_of? h, daysBeforeYear_succ, show daysBeforeMonth (d.year + 1) 1 = 0 from rfl]
      omega

theorem number_previous? {d e : Date} (h : d.previous? = some e) : e.number = d.number - 1 := by
  obtain ⟨-, -, hfirst, hlast, hone, -⟩ := d.valid
  rw [d.number_eq]
  unfold previous? at h
  split at h
  · rw [number_of? h]
    omega
  · split at h
    · have hpositive : 1 ≤ d.month - 1 := by omega
      have hmonth := daysBeforeMonth_succ d.year hpositive
      rw [Nat.sub_add_cancel hfirst] at hmonth
      rw [number_of? h]
      omega
    · -- the first day of January follows the last of December
      have hyear : daysBeforeMonth (d.year - 1) 12 + 31 = daysInYear (d.year - 1) :=
        daysBeforeMonth_thirteen (d.year - 1)
      have hsucc := daysBeforeYear_succ (d.year - 1)
      rw [Int.sub_add_cancel] at hsucc
      rw [number_of? h, hsucc, show d.month = 1 by omega,
        show daysBeforeMonth d.year 1 = 0 from rfl]
      omega

/-- The days of a month are numbered before those of the next. -/
theorem ordinal_le (d : Date) : d.ordinal ≤ daysBeforeMonth d.year (d.month + 1) := by
  obtain ⟨-, -, hfirst, -, -, hday⟩ := d.valid
  rw [daysBeforeMonth_succ d.year hfirst]
  exact Nat.add_le_add_left hday _

theorem daysBeforeMonth_lt_ordinal (d : Date) : daysBeforeMonth d.year d.month < d.ordinal :=
  Nat.lt_add_of_pos_right d.valid.2.2.2.2.1

/-- The days of a year are numbered before those of the next. -/
theorem number_le (d : Date) : d.number ≤ daysBeforeYear (d.year + 1) := by
  have hmonth := daysBeforeMonth_le d.year (Nat.add_le_add_right d.valid.2.2.2.1 1)
  have hday := d.ordinal_le
  rw [daysBeforeMonth_thirteen] at hmonth
  rw [number, daysBeforeYear_succ]
  omega

theorem daysBeforeYear_lt_number (d : Date) : daysBeforeYear d.year < d.number := by
  have hday := d.daysBeforeMonth_lt_ordinal
  rw [number]
  omega

/-- No two days have the same number. -/
theorem eq_of_number_eq {d e : Date} (h : d.number = e.number) : d = e := by
  have hyear : d.year = e.year := by
    by_contra hne
    rcases Int.lt_or_gt_of_ne hne with hlt | hlt
    · have := daysBeforeYear_le hlt
      have := d.number_le
      have := e.daysBeforeYear_lt_number
      omega
    · have := daysBeforeYear_le hlt
      have := e.number_le
      have := d.daysBeforeYear_lt_number
      omega
  have hordinal : d.ordinal = e.ordinal := by
    rw [number, number, hyear] at h
    omega
  have hmonth : d.month = e.month := by
    by_contra hne
    have hd := d.ordinal_le
    have he := e.ordinal_le
    have hd' := d.daysBeforeMonth_lt_ordinal
    have he' := e.daysBeforeMonth_lt_ordinal
    rw [hyear] at hd hd'
    rcases Nat.lt_or_gt_of_ne hne with hlt | hlt
    · have hle : d.month + 1 ≤ e.month := hlt
      have := daysBeforeMonth_le e.year hle
      omega
    · have hle : e.month + 1 ≤ d.month := hlt
      have := daysBeforeMonth_le e.year hle
      omega
  have hday : d.day = e.day := by
    rw [ordinal, ordinal, hyear, hmonth] at hordinal
    omega
  cases d
  cases e
  cases hyear
  cases hmonth
  cases hday
  rfl

end Date

/-! ## Timestamps -/

namespace Timestamp

/-- The number of the minute of a timestamp. -/
def minutes (t : Timestamp) : Int := 1440 * t.date.number + (60 * t.hour + t.minute : Nat)

/-- Timestamps are the same when they lie in one minute, at the same second and nanosecond. -/
theorem eq_iff_minutes (t u : Timestamp) :
    t = u ↔ t.minutes = u.minutes ∧ t.second = u.second ∧ t.nano = u.nano := by
  refine ⟨fun h => h ▸ ⟨rfl, rfl, rfl⟩, ?_⟩
  obtain ⟨date, hour, minute, second, nano, hhour, hminute, -, -⟩ := t
  obtain ⟨date', hour', minute', second', nano', hhour', hminute', -, -⟩ := u
  rintro ⟨hminutes, hsecond, hnano⟩
  simp only [minutes] at hminutes
  obtain rfl : date = date' := Date.eq_of_number_eq (by omega)
  obtain rfl : hour = hour' := by omega
  obtain rfl : minute = minute' := by omega
  cases hsecond
  cases hnano
  rfl

theorem minutes_of? {date : Date} {hour minute second nano : Nat} {t : Timestamp}
    (h : of? date hour minute second nano = some t) :
    t.minutes = 1440 * date.number + (60 * hour + minute : Nat) ∧ t.second = second ∧
      t.nano = nano := by
  rw [of?] at h
  split at h
  · cases h
    exact ⟨rfl, rfl, rfl⟩
  · cases h

/-- An offset is taken off the minute and leaves the second alone. -/
theorem minutes_minusMinutes? {t u : Timestamp} {offset : Int}
    (hoffset : -1440 < offset ∧ offset < 1440) (h : t.minusMinutes? offset = some u) :
    u.minutes = t.minutes - offset ∧ u.second = t.second ∧ u.nano = t.nano := by
  obtain ⟨hhour, hminute, -, -⟩ := t.valid
  obtain ⟨date, hdate, hof⟩ := Option.bind_eq_some_iff.mp h
  obtain ⟨hminutes, hsecond, hnano⟩ := minutes_of? hof
  refine ⟨?_, hsecond, hnano⟩
  rw [hminutes, minutes]
  split at hdate
  · rw [Date.number_previous? hdate]
    omega
  · split at hdate
    · cases hdate
      omega
    · rw [Date.number_next? hdate]
      omega

/-- Local times with their offsets name the same timestamp when they name the same minute of
universal time and have the same second and nanosecond. -/
theorem minusMinutes?_eq_iff {t u t' u' : Timestamp} {offset offset' : Int}
    (hoffset : -1440 < offset ∧ offset < 1440) (hoffset' : -1440 < offset' ∧ offset' < 1440)
    (ht : t.minusMinutes? offset = some t') (hu : u.minusMinutes? offset' = some u') :
    t' = u' ↔
      t.minutes - offset = u.minutes - offset' ∧ t.second = u.second ∧ t.nano = u.nano := by
  obtain ⟨htm, hts, htn⟩ := minutes_minusMinutes? hoffset ht
  obtain ⟨hum, hus, hun⟩ := minutes_minusMinutes? hoffset' hu
  rw [eq_iff_minutes, htm, hum, hts, hus, htn, hun]

end Timestamp

end SqlSelect

import TableQuery.Timestamp.Basic

/-! Days and dates, times and clocks: every day has a date of the calendar and the date has the
number of the day, and a time is the one at which a clock shows what it shows then. -/
namespace TableQuery
namespace Date

def inCountedYear (year inYear : Int) : Date :=
  let month := (5 * inYear + 2) / 153
  { year := if month < 10 then year else year + 1
    month := (if month < 10 then month + 3 else month - 9).toNat
    day := (inYear - (153 * month + 2) / 5 + 1).toNat }

def daysBefore (year : Int) : Int := 365 * year + year / 4 - year / 100 + year / 400

structure IsIn (year inYear : Int) : Prop where
  nonneg : 0 ≤ inYear
  le : inYear ≤ 365
  leap : inYear = 365 → isLeapYear (year + 1) = true

theorem isLeapYear_iff {year : Int} :
    isLeapYear year = true ↔ year % 4 = 0 ∧ (year % 100 ≠ 0 ∨ year % 400 = 0) := by
  simp [isLeapYear]

theorem daysBefore_eq {era century fourYears yearOfFour : Int} (hc : 0 ≤ century ∧ century ≤ 3)
    (hf : 0 ≤ fourYears ∧ fourYears ≤ 24) (hy : 0 ≤ yearOfFour ∧ yearOfFour ≤ 3) :
    daysBefore (400 * era + 100 * century + 4 * fourYears + yearOfFour) =
      146097 * era + 36524 * century + 1461 * fourYears + 365 * yearOfFour := by
  have hfour : (400 * era + 100 * century + 4 * fourYears + yearOfFour) / 4 =
      100 * era + 25 * century + fourYears := by omega
  have hhundred : (400 * era + 100 * century + 4 * fourYears + yearOfFour) / 100 =
      4 * era + century := by omega
  have hera : (400 * era + 100 * century + 4 * fourYears + yearOfFour) / 400 = era := by omega
  rw [daysBefore, hfour, hhundred, hera]
  omega

theorem daysBefore_mono {a b : Int} (h : a ≤ b) : daysBefore a ≤ daysBefore b := by
  rw [daysBefore, daysBefore]
  rcases Int.le_iff_eq_or_lt.1 h with rfl | hlt <;> omega

/-- Every day is a day of a counted year. -/
theorem exists_isIn (n : Int) : ∃ year inYear, IsIn year inYear ∧
    ofDayNumber n = inCountedYear year inYear ∧ n + epochOffset = daysBefore year + inYear := by
  have hdays := Int.mul_ediv_add_emod (n + epochOffset) 146097
  generalize hera : (n + epochOffset) / 146097 = era at hdays
  generalize hinEra : (n + epochOffset) % 146097 = inEra at hdays
  have hera_bounds : 0 ≤ inEra ∧ inEra < 146097 := by omega
  generalize hcentury : min (inEra / 36524) 3 = century
  have hc : 0 ≤ century ∧ century ≤ 3 := by omega
  generalize hinCentury : inEra - 36524 * century = inCentury
  have hcentury_bounds : 0 ≤ inCentury ∧ inCentury ≤ 36524 ∧ (inCentury = 36524 → century = 3) := by
    omega
  generalize hfourYears : inCentury / 1461 = fourYears
  have hf : 0 ≤ fourYears ∧ fourYears ≤ 24 := by omega
  generalize hinFourYears : inCentury % 1461 = inFourYears
  have hfour_bounds : 0 ≤ inFourYears ∧ inFourYears ≤ 1460 := by omega
  generalize hyearOfFour : min (inFourYears / 365) 3 = yearOfFour
  have hy : 0 ≤ yearOfFour ∧ yearOfFour ≤ 3 := by omega
  generalize hinYear : inFourYears - 365 * yearOfFour = inYear
  have hyear_bounds : 0 ≤ inYear ∧ inYear ≤ 365 ∧ (inYear = 365 → inFourYears = 1460) := by omega
  refine ⟨400 * era + 100 * century + 4 * fourYears + yearOfFour, inYear, ⟨?_, ?_, ?_⟩, ?_, ?_⟩
  · exact hyear_bounds.1
  · exact hyear_bounds.2.1
  · intro hlast
    rw [isLeapYear_iff]
    omega
  · rw [ofDayNumber, hera, hinEra, hcentury, hinCentury, hfourYears, hinFourYears, hyearOfFour,
      hinYear, inCountedYear]
  · rw [daysBefore_eq hc hf hy]
    omega

section
variable {year inYear : Int}

theorem year_inCountedYear (year inYear : Int) :
    (inCountedYear year inYear).year = if inYear < 306 then year else year + 1 := by
  rw [inCountedYear]
  dsimp only
  split <;> split <;> omega

theorem dayNumber_inCountedYear (h : IsIn year inYear) :
    (inCountedYear year inYear).dayNumber = daysBefore year + inYear - epochOffset := by
  obtain ⟨hnonneg, hle, -⟩ := h
  rw [inCountedYear, dayNumber, daysBefore]
  generalize hmonth : (5 * inYear + 2) / 153 = month
  dsimp only
  have hbounds : 0 ≤ month ∧ month ≤ 11 ∧ (153 * month + 2) / 5 ≤ inYear := by omega
  by_cases hlate : month < 10
  · have hnot : ¬ (month + 3).toNat ≤ 2 := by omega
    simp only [if_pos hlate, if_neg hnot]
    omega
  · have hearly : (month - 9).toNat ≤ 2 := by omega
    simp only [if_neg hlate, if_pos hearly]
    omega

/-- The months of a counted year, the last one apart, follow each other on the days that the
formula for their beginnings gives. -/
theorem daysInMonth_eq (year : Int) {month : Nat} (h : month < 11) :
    (daysInMonth year (if month < 10 then month + 3 else month - 9) : Int) =
      (153 * (month + 1) + 2) / 5 - (153 * month + 2) / 5 := by
  match month, h with
  | 0, _ | 1, _ | 2, _ | 3, _ | 4, _ | 5, _ | 6, _ | 7, _ | 8, _ | 9, _ | 10, _ => rfl

theorem isValid_inCountedYear (h : IsIn year inYear) :
    (inCountedYear year inYear).isValid = true := by
  obtain ⟨hnonneg, hle, hleap⟩ := h
  obtain ⟨month, hmonth⟩ := Int.eq_ofNat_of_zero_le (a := (5 * inYear + 2) / 153) (by omega)
  rw [inCountedYear, isValid, hmonth]
  simp only [Bool.and_eq_true, decide_eq_true_eq]
  by_cases hlast : month < 11
  · have hlength := daysInMonth_eq (if (month : Int) < 10 then year else year + 1) hlast
    have hindex : (if (month : Int) < 10 then (month : Int) + 3 else month - 9).toNat =
        if month < 10 then month + 3 else month - 9 := by
      split <;> split <;> omega
    rw [hindex]
    generalize daysInMonth _ _ = length at hlength ⊢
    omega
  · -- the days of the last month are counted from the day 337
    obtain rfl : month = 11 := by omega
    have hlength : daysInMonth (year + 1) 2 = if isLeapYear (year + 1) then 29 else 28 := rfl
    have hindex : ((11 : Nat) : Int) < 10 ↔ False := by decide
    have hsecond : ((11 : Nat) - 9 : Int).toNat = 2 := rfl
    simp only [hindex, if_false, hsecond, hlength]
    split
    · omega
    · next hshort =>
      have hnot : inYear ≠ 365 := fun hlong => hshort (hleap hlong)
      omega

end

theorem isValid_ofDayNumber (n : Int) : (ofDayNumber n).isValid = true := by
  obtain ⟨year, inYear, h, hdate, -⟩ := exists_isIn n
  rw [hdate, isValid_inCountedYear h]

theorem dayNumber_ofDayNumber (n : Int) : (ofDayNumber n).dayNumber = n := by
  obtain ⟨year, inYear, h, hdate, hn⟩ := exists_isIn n
  rw [hdate, dayNumber_inCountedYear h]
  omega

/-- The days that times are in are those of the years -262143 to 262142. -/
theorem year_ofDayNumber {n : Int} (hfirst : -96465292 ≤ n) (hlast : n ≤ 95026236) :
    -262143 ≤ (ofDayNumber n).year ∧ (ofDayNumber n).year ≤ 262142 := by
  obtain ⟨year, inYear, ⟨hnonneg, hle, -⟩, hdate, hn⟩ := exists_isIn n
  have hbefore : year ≤ -262144 → daysBefore year ≤ -95746130 := daysBefore_mono
  have hlong : year ≤ -262145 → daysBefore year ≤ -95746496 := daysBefore_mono
  have hafter : 262142 ≤ year → 95745399 ≤ daysBefore year := daysBefore_mono
  have hbeyond : 262143 ≤ year → 95745764 ≤ daysBefore year := daysBefore_mono
  rw [epochOffset] at hn
  rw [hdate, year_inCountedYear]
  split <;> omega

end Date

namespace Timestamp

def clock (t : Timestamp) : Clock := ⟨t.date, t.hour, t.minute, t.second, t.fraction⟩

theorem hour_lt (t : Timestamp) : t.hour < 24 := by
  rw [hour, secondOfDay]
  omega

theorem minute_lt (t : Timestamp) : t.minute < 60 := Nat.mod_lt _ (by decide)

theorem fraction_lt (t : Timestamp) : t.fraction < 1000000000 := Nat.mod_lt _ (by decide)

theorem second_eq (t : Timestamp) :
    t.second = if t.nanos < 1000000000 then t.secondOfDay % 60 else 60 := by
  have hnanos := t.nanos_lt
  have hleap := t.leap_second
  rw [second, secondOfDay]
  split <;> omega

theorem second_le (t : Timestamp) : t.second ≤ 60 := by
  rw [second_eq]
  split <;> omega

theorem year_date (t : Timestamp) : -262143 ≤ t.date.year ∧ t.date.year ≤ 262142 := by
  have hfirst := t.first_le
  have hlast := t.le_last
  exact Date.year_ofDayNumber (by omega) (by omega)

theorem isValid_date (t : Timestamp) : t.date.isValid = true := Date.isValid_ofDayNumber _

theorem ofEpoch?_self (t : Timestamp) : ofEpoch? t.seconds t.nanos = some t :=
  dif_pos ⟨t.first_le, t.le_last, t.nanos_lt, t.leap_second⟩

theorem seconds_eq (t : Timestamp) :
    t.seconds =
      86400 * t.date.dayNumber + 3600 * t.hour + 60 * t.minute + (t.secondOfDay % 60 : Nat) := by
  have hday : t.date.dayNumber = t.seconds / 86400 := Date.dayNumber_ofDayNumber _
  rw [hday, hour, minute, secondOfDay]
  omega

/-- The time at which a clock in UTC shows what it shows at a time is that time. -/
theorem ofClock?_clock (t : Timestamp) : ofClock? t.clock 0 = some t := by
  have hseconds := t.seconds_eq
  have hsecond := t.second_eq
  rw [ofClock?, clock, if_pos]
  · dsimp only
    by_cases hordinary : t.nanos < 1000000000
    · have hfraction : t.fraction = t.nanos := Nat.mod_eq_of_lt hordinary
      rw [if_pos hordinary] at hsecond
      have hne : t.second ≠ 60 := by omega
      rw [if_neg hne, if_neg hne, hsecond, hfraction, Int.sub_zero, ← hseconds, ofEpoch?_self]
    · -- the second 60 is the leap second after the last of the minute
      have hnanos : 1000000000 + t.fraction = t.nanos := by
        have hlt := t.nanos_lt
        rw [fraction]
        omega
      have hlast : t.secondOfDay % 60 = 59 := by
        have hleap := t.leap_second (Nat.not_lt.1 hordinary)
        rw [secondOfDay]
        omega
      rw [if_neg hordinary] at hsecond
      rw [hlast] at hseconds
      rw [if_pos hsecond, if_pos hsecond, hnanos, Int.sub_zero, ← hseconds, ofEpoch?_self]
  · simp [t.isValid_date, t.year_date, t.hour_lt, t.minute_lt, t.second_le, t.fraction_lt]

end Timestamp
end TableQuery

import AssetServer.Calendar
import Mathlib.Tactic.IntervalCases
import Mathlib.Tactic.Ring

/-!
# Days and dates

The date of a day is a date of the Gregorian calendar, and it names that day.

An era of 400 years is cut into centuries, spans of four years, years and days (`Place`). Of the
parts of each cut only the last can be a day longer, or in the case of a span, every one but the
last of a century. The formulas of `ofDays` find the year of a place (`Place.yearOfEra_eq`) and the
month of a day of a year; `toDays` sums the same parts up again.

- `toDays_ofDays`: the date of a day names that day.
- `valid_ofDays`: it exists, if its year is one that dates can have.
-/

namespace AssetServer.Calendar

/-! ## §1 Days of an era -/

/-- A day of an era: years are counted from the first of March. -/
structure Place where
  century : Nat
  /-- The number of spans of four years before it in the century. -/
  span : Nat
  /-- The number of years before it in the span. -/
  year : Nat
  /-- The number of days before it in the year. -/
  day : Nat

/-- A place is in the calendar: the day after the last of a common year is one only at the end of a
    span that ends in a leap year. -/
structure Place.Fits (p : Place) : Prop where
  century : p.century ≤ 3
  span : p.span ≤ 24
  year : p.year ≤ 3
  day : p.day ≤ 365
  leap : p.day = 365 → p.year = 3 ∧ (p.span < 24 ∨ p.century = 3)

namespace Place

/-- The number of days before it in the era. -/
def dayOfEra (p : Place) : Nat :=
  36524 * p.century + 1461 * p.span + 365 * p.year + p.day

/-- The number of years before it in the era. -/
def yearOfEra (p : Place) : Nat :=
  100 * p.century + 4 * p.span + p.year

variable {p : Place}

theorem Fits.yearOfEra_lt (hp : p.Fits) : p.yearOfEra < 400 := by
  obtain ⟨hc, hs, hy, -, -⟩ := hp
  unfold yearOfEra
  omega

theorem Fits.dayOfEra_lt (hp : p.Fits) : p.dayOfEra < 146097 := by
  obtain ⟨c, s, y, d⟩ := p
  obtain ⟨hc, hs, hy, hd, hleap⟩ := hp
  simp only [dayOfEra] at *
  omega

/-- The years before a place and the days in its year make up the days before it. -/
theorem Fits.dayOfEra_eq (hp : p.Fits) :
    365 * p.yearOfEra + p.yearOfEra / 4 - p.yearOfEra / 100 + p.day = p.dayOfEra := by
  obtain ⟨c, s, y, d⟩ := p
  obtain ⟨hc, hs, hy, -, -⟩ := hp
  simp only [dayOfEra, yearOfEra] at *
  omega

/-- Cutting into 1460 days counts the leap days before a place, and one more near the end of a
    span. -/
theorem Fits.div_1460 (hp : p.Fits) : ∃ e, e ≤ p.day ∧ p.day < 365 + e ∧
    p.dayOfEra / 1460 = 25 * p.century + p.span + e := by
  obtain ⟨c, s, y, d⟩ := p
  obtain ⟨hc, hs, hy, hd, hleap⟩ := hp
  simp only [dayOfEra] at *
  have hcut : 36524 * c + 1461 * s + 365 * y + d =
      1460 * (25 * c + s) + (24 * c + s + 365 * y + d) := by ring
  rw [hcut, Nat.mul_add_div (by omega)]
  exact ⟨(24 * c + s + 365 * y + d) / 1460, by omega, by omega, rfl⟩

/-- Cutting into 36524 days counts the centuries, but for the last day of the era. -/
theorem Fits.div_36524 (hp : p.Fits) :
    p.dayOfEra / 36524 = p.century + p.dayOfEra / 146096 := by
  obtain ⟨c, s, y, d⟩ := p
  obtain ⟨hc, hs, hy, hd, hleap⟩ := hp
  simp only [dayOfEra] at *
  -- a century has 36524 days, and the last one of an era a day more
  have hrest : 1461 * s + 365 * y + d ≤ 36524 := by omega
  have hlast : 1461 * s + 365 * y + d = 36524 → c = 3 := by omega
  clear hleap
  rw [Nat.add_assoc, Nat.add_assoc, ← Nat.add_assoc (1461 * s)]
  generalize 1461 * s + 365 * y + d = r at hrest hlast
  omega

/-- The year of a place from the days before it. -/
theorem Fits.yearOfEra_eq (hp : p.Fits) :
    (p.dayOfEra - p.dayOfEra / 1460 + p.dayOfEra / 36524 - p.dayOfEra / 146096) / 365 =
      p.yearOfEra := by
  obtain ⟨e, he, he', hspans⟩ := hp.div_1460
  rw [hspans, hp.div_36524, ← Nat.add_assoc, Nat.add_sub_cancel]
  obtain ⟨c, s, y, d⟩ := p
  simp only [dayOfEra, yearOfEra] at *
  have hrest : 36524 * c + 1461 * s + 365 * y + d - (25 * c + s + e) + c =
      365 * (100 * c + 4 * s + y) + (d - e) := by omega
  rw [hrest, Nat.mul_add_div (by omega), Nat.div_eq_of_lt (by omega), Nat.add_zero]

end Place

/-- Every day of an era has a place. -/
theorem exists_place {doe : Nat} (h : doe < 146097) : ∃ p : Place, p.Fits ∧ p.dayOfEra = doe := by
  -- the last day of the era and that of a leap year are one more than the parts of a cut hold
  obtain ⟨c, r, hc, hr, hdoe⟩ :
      ∃ c r, c ≤ 3 ∧ (r < 36524 ∨ c = 3 ∧ r = 36524) ∧ doe = 36524 * c + r := by
    by_cases hlast : doe = 146096
    · exact ⟨3, 36524, by omega, by omega, by omega⟩
    · exact ⟨doe / 36524, doe % 36524, by omega, by omega, by omega⟩
  obtain ⟨y, d, hy, hd, hr'⟩ :
      ∃ y d, y ≤ 3 ∧ (d < 365 ∨ y = 3 ∧ d = 365) ∧ r % 1461 = 365 * y + d := by
    by_cases hlast : r % 1461 = 1460
    · exact ⟨3, 365, by omega, by omega, by omega⟩
    · exact ⟨r % 1461 / 365, r % 1461 % 365, by omega, by omega, by omega⟩
  refine ⟨⟨c, r / 1461, y, d⟩, ⟨hc, ?_, hy, ?_, ?_⟩, ?_⟩
  · show r / 1461 ≤ 24
    omega
  · show d ≤ 365
    omega
  · intro hleap
    change d = 365 at hleap
    show y = 3 ∧ (r / 1461 < 24 ∨ c = 3)
    omega
  · show 36524 * c + 1461 * (r / 1461) + 365 * y + d = doe
    omega

/-! ## §2 Months -/

/-- The month of a day of a year, from 0 for March. -/
def monthOf (day : Nat) : Nat := (5 * day + 2) / 153

/-- The number of days before a month of a year, from 0 for March. -/
def daysBefore (month : Nat) : Nat := (153 * month + 2) / 5

theorem monthOf_le {day : Nat} (h : day ≤ 365) : monthOf day ≤ 11 := by
  unfold monthOf
  omega

/-- A day is in its month. -/
theorem daysBefore_monthOf (day : Nat) :
    daysBefore (monthOf day) ≤ day ∧ day < daysBefore (monthOf day + 1) := by
  unfold daysBefore monthOf
  omega

/-! ## §3 Dates of days -/

variable {days era : Int} {p : Place}

theorem exists_era (days : Int) :
    ∃ (era : Int) (p : Place), p.Fits ∧ days + daysToEpoch = era * daysPerEra + p.dayOfEra := by
  obtain ⟨doe, hdoe⟩ : ∃ doe : Nat, (days + daysToEpoch) % daysPerEra = doe :=
    Int.eq_ofNat_of_zero_le (Int.emod_nonneg _ (by decide))
  have hlt := Int.emod_lt_of_pos (days + daysToEpoch) (b := daysPerEra) (by decide)
  rw [hdoe] at hlt
  have hdays : doe < 146097 := by
    unfold daysPerEra at hlt
    omega
  obtain ⟨p, hp, hplace⟩ := exists_place hdays
  refine ⟨(days + daysToEpoch) / daysPerEra, p, hp, ?_⟩
  rw [hplace, ← hdoe, Int.ediv_mul_add_emod]

theorem fdiv_era (hp : p.Fits) : Int.fdiv (era * daysPerEra + p.dayOfEra) daysPerEra = era := by
  have hlt := hp.dayOfEra_lt
  rw [Int.fdiv_eq_ediv_of_nonneg _ (by decide)]
  unfold daysPerEra
  omega

/-- The date of a day from its place. -/
theorem ofDays_eq (hp : p.Fits) (hdays : days + daysToEpoch = era * daysPerEra + p.dayOfEra) :
    ofDays days =
      ⟨p.yearOfEra + era * 400 + (if monthOf p.day < 10 then 0 else 1),
        if monthOf p.day < 10 then monthOf p.day + 3 else monthOf p.day - 9,
        p.day - daysBefore (monthOf p.day) + 1⟩ := by
  have hdoe : Int.toNat (era * daysPerEra + p.dayOfEra - era * daysPerEra) = p.dayOfEra := by
    omega
  have hday : p.dayOfEra - (365 * p.yearOfEra + p.yearOfEra / 4 - p.yearOfEra / 100) = p.day := by
    have := hp.dayOfEra_eq
    omega
  have hmonthOf : (5 * p.day + 2) / 153 = monthOf p.day := rfl
  have hdaysBefore : (153 * monthOf p.day + 2) / 5 = daysBefore (monthOf p.day) := rfl
  have hmonth := monthOf_le hp.day
  unfold ofDays
  simp only [hdays, fdiv_era hp, hdoe, hp.yearOfEra_eq, hday, hmonthOf, hdaysBefore]
  by_cases hspring : monthOf p.day < 10
  · have hlate : ¬ monthOf p.day + 3 ≤ 2 := by omega
    simp only [if_pos hspring, if_neg hlate]
  · have hearly : monthOf p.day - 9 ≤ 2 := by omega
    simp only [if_neg hspring, if_pos hearly]

/-- The day that a date names, from its place. -/
theorem toDays_eq {month : Nat} (hp : p.Fits) (hmonth : month ≤ 11)
    (hday : daysBefore month ≤ p.day) :
    toDays ⟨p.yearOfEra + era * 400 + (if month < 10 then 0 else 1),
      if month < 10 then month + 3 else month - 9, p.day - daysBefore month + 1⟩ =
      era * daysPerEra + p.dayOfEra - daysToEpoch := by
  have hyear := hp.yearOfEra_lt
  have hera : Int.fdiv (p.yearOfEra + era * 400) 400 = era := by
    rw [Int.fdiv_eq_ediv_of_nonneg _ (by decide)]
    omega
  have hyoe : Int.toNat (p.yearOfEra + era * 400 - era * 400) = p.yearOfEra := by omega
  have hdoe : p.yearOfEra * 365 + p.yearOfEra / 4 - p.yearOfEra / 100 +
      (daysBefore month + (p.day - daysBefore month + 1) - 1) = p.dayOfEra := by
    rw [← hp.dayOfEra_eq]
    omega
  unfold toDays
  -- the last two months of the count belong to the next year
  by_cases hspring : month < 10
  · have hlate : ¬ month + 3 ≤ 2 := by omega
    have hlate' : 2 < month + 3 := by omega
    have hsame : (153 * (month + 3 - 3) + 2) / 5 = daysBefore month := rfl
    simp only [if_pos hspring, if_neg hlate, if_pos hlate', Int.add_zero, hera, hyoe, hsame, hdoe]
  · have hearly : month - 9 ≤ 2 := by omega
    have hearly' : ¬ 2 < month - 9 := by omega
    have hsame : (153 * (month - 9 + 9) + 2) / 5 = daysBefore month := by
      rw [Nat.sub_add_cancel (by omega)]
      rfl
    have hyears : (p.yearOfEra : Int) + era * 400 + 1 - 1 = p.yearOfEra + era * 400 := by omega
    simp only [if_neg hspring, if_pos hearly, if_neg hearly', hyears, hera, hyoe, hsame, hdoe]

/-- The date of a day names that day. -/
theorem toDays_ofDays (days : Int) : toDays (ofDays days) = days := by
  obtain ⟨era, p, hp, hdays⟩ := exists_era days
  rw [ofDays_eq hp hdays, toDays_eq hp (monthOf_le hp.day) (daysBefore_monthOf p.day).1]
  omega

/-- A day in the last month of a year, February, is one that the month has. -/
theorem february_le (hp : p.Fits) (era : Int) :
    p.day - daysBefore 11 + 1 ≤ daysInMonth (p.yearOfEra + era * 400 + 1) 2 := by
  obtain ⟨c, s, y, d⟩ := p
  obtain ⟨hc, hs, hy, hd, hleap⟩ := hp
  simp only [Place.yearOfEra] at *
  have hbefore : daysBefore 11 = 337 := rfl
  unfold daysInMonth
  rw [if_pos rfl, hbefore]
  by_cases hlast : d = 365
  · -- the 29th, in a year that `leap` makes a leap year
    obtain ⟨rfl, hs'⟩ := hleap hlast
    have hisLeap : isLeap (((100 * c + 4 * s + 3 : Nat) : Int) + era * 400 + 1) = true := by
      unfold isLeap
      simp only [Bool.and_eq_true, Bool.or_eq_true, beq_iff_eq, bne_iff_ne]
      omega
    rw [hisLeap, if_pos rfl]
    omega
  · split <;> omega

/-- Any other month has the days between its start and that of the next one. -/
theorem length_le {month : Nat} (h : month ≤ 10) (year : Int) :
    daysBefore (month + 1) ≤ daysBefore month +
      daysInMonth year (if month < 10 then month + 3 else month - 9) := by
  interval_cases month <;> simp [daysBefore, daysInMonth]

/-- The date of a day exists, if its year is one that dates can have. -/
theorem valid_ofDays (hmin : minYear ≤ (ofDays days).year) (hmax : (ofDays days).year ≤ maxYear) :
    (ofDays days).valid = true := by
  obtain ⟨era, p, hp, hdays⟩ := exists_era days
  obtain ⟨hfirst, hlast⟩ := daysBefore_monthOf p.day
  have hmonth := monthOf_le hp.day
  rw [ofDays_eq hp hdays] at hmin hmax ⊢
  have hday : p.day - daysBefore (monthOf p.day) + 1 ≤ daysInMonth
      (p.yearOfEra + era * 400 + (if monthOf p.day < 10 then 0 else 1))
      (if monthOf p.day < 10 then monthOf p.day + 3 else monthOf p.day - 9) := by
    by_cases hfebruary : monthOf p.day = 11
    · rw [hfebruary]
      exact february_le hp era
    · have hless : monthOf p.day ≤ 10 := by omega
      have hlength := length_le hless
        (p.yearOfEra + era * 400 + (if monthOf p.day < 10 then 0 else 1))
      omega
  unfold Date.valid
  simp only [Bool.and_eq_true, decide_eq_true_eq]
  refine ⟨⟨⟨⟨⟨hmin, hmax⟩, ?_⟩, ?_⟩, by omega⟩, hday⟩
  · split <;> omega
  · split <;> omega

theorem daysInMonth_le (year : Int) (month : Nat) : daysInMonth year month ≤ 31 := by
  unfold daysInMonth
  split
  · split <;> omega
  · split <;> omega

/-- A date that exists has one of twelve months and one of at most 31 days. -/
theorem Date.bounds {date : Date} (h : date.valid = true) :
    1 ≤ date.month ∧ date.month ≤ 12 ∧ 1 ≤ date.day ∧ date.day ≤ 31 := by
  unfold Date.valid at h
  simp only [Bool.and_eq_true, decide_eq_true_eq] at h
  obtain ⟨⟨⟨⟨-, hmonth⟩, hmonth'⟩, hday⟩, hday'⟩ := h
  exact ⟨hmonth, hmonth', hday, hday'.trans (daysInMonth_le _ _)⟩

end AssetServer.Calendar

import FrankenGraph.Library.Signed

/-!
# The Gregorian calendar over day numbers

`crates/fgdb-types/src/temporal/calendar.rs` (L13-216). Day numbers count from 1970-01-01.
`div_euclid` and `rem_euclid` are `/` and `%` of `ℤ`; the other divisions of the source have
nonnegative operands, except where `Int.tdiv` is written. A cast `as u8` is the value modulo 256.

Results:
* `daysFromCivil_eq`: a day number is the start of its year, the months before it and the day
* `civilOf_spec`, `civil_unique`: every day has one civil date
* `toCivil_eq_some`, `next_days`: the conversion and its successor
-/

namespace FrankenGraph.Temporal.Calendar

/-- `MIN_YEAR`. -/
def minYear : ℤ := -999999999

/-- `MAX_YEAR`. -/
def maxYear : ℤ := 999999999

/-- `MIN_EPOCH_DAY`. -/
def minEpochDay : ℤ := -365243219162

/-- `MAX_EPOCH_DAY`. -/
def maxEpochDay : ℤ := 365241780471

/-- `as u8`. -/
def asU8 (x : ℤ) : ℕ := (x % 256).toNat

/-- `as u16`. -/
def asU16 (x : ℤ) : ℕ := (x % 65536).toNat

/-- `is_leap_year` (L28-30). -/
def isLeapYear (year : ℤ) : Bool := year % 4 = 0 ∧ (year % 100 ≠ 0 ∨ year % 400 = 0)

/-- `days_in_year` (L34-36). -/
def daysInYear (year : ℤ) : ℕ := if isLeapYear year then 366 else 365

/-- `days_in_month` (L40-48). -/
def daysInMonth (year : ℤ) : ℕ → ℕ
  | 1 | 3 | 5 | 7 | 8 | 10 | 12 => 31
  | 4 | 6 | 9 | 11 => 30
  | 2 => if isLeapYear year then 29 else 28
  | _ => 0

/-- `days_from_civil` (L52-61). -/
def daysFromCivil (year : ℤ) (month day : ℕ) : ℤ :=
  let year := if month ≤ 2 then year - 1 else year
  let era := year / 400
  let yearOfEra := year % 400
  let dayOfYear := (153 * (((month : ℤ) + 9) % 12) + 2) / 5 + day - 1
  let dayOfEra := yearOfEra * 365 + yearOfEra / 4 - yearOfEra / 100 + dayOfYear
  era * 146097 + dayOfEra - 719468

/-- `year_in_range` (L65-67). -/
def yearInRange (year : ℤ) : Bool := minYear ≤ year ∧ year ≤ maxYear

/-- `from_civil` (L72-75). -/
def fromCivil (year : ℤ) (month day : ℕ) : Option ℤ :=
  if yearInRange year ∧ 1 ≤ day ∧ day ≤ daysInMonth year month
  then some (daysFromCivil year month day) else none

/-- `in_range` (L79-81). -/
def inRange (day : ℤ) : Bool := minEpochDay ≤ day ∧ day ≤ maxEpochDay

/-- The year of the era of a day of the era. -/
def yearOfEra (dayOfEra : ℤ) : ℤ :=
  (dayOfEra - dayOfEra / 1460 + dayOfEra / 36524 - dayOfEra / 146096) / 365

/-- The civil date of a day of a year of an era, with years from March. -/
def civilFrom (era yearOfEra dayOfYear : ℤ) : ℤ × ℕ × ℕ :=
  let monthIndex := (5 * dayOfYear + 2) / 153
  let dayOfMonth := dayOfYear - (153 * monthIndex + 2) / 5 + 1
  let month := if monthIndex < 10 then monthIndex + 3 else monthIndex - 9
  let year := yearOfEra + era * 400 + if month ≤ 2 then 1 else 0
  (year, asU8 month, asU8 dayOfMonth)

/-- The civil date of a day number, without the check of the range. -/
def civilOf (day : ℤ) : ℤ × ℕ × ℕ :=
  let shifted := day + 719468
  let dayOfEra := shifted % 146097
  let year := yearOfEra dayOfEra
  civilFrom (shifted / 146097) year (dayOfEra - (365 * year + year / 4 - year / 100))

/-- `to_civil` (L85-105). -/
def toCivil (day : ℤ) : Option (ℤ × ℕ × ℕ) := if inRange day then some (civilOf day) else none

/-- `iso_weekday` (L110-112). -/
def isoWeekday (day : ℤ) : ℕ := asU8 ((day % 7 + 3) % 7 + 1)

/-- `week_one_monday` (L116-119). -/
def weekOneMonday (weekYear : ℤ) : ℤ :=
  let januaryFourth := daysFromCivil weekYear 1 4
  januaryFourth - (isoWeekday januaryFourth - 1)

/-- `weeks_in_week_year` (L123-125). -/
def weeksInWeekYear (weekYear : ℤ) : ℕ :=
  asU8 ((weekOneMonday (weekYear + 1) - weekOneMonday weekYear).tdiv 7)

/-- `iso_week_count` (L130-134). -/
def isoWeekCount (weekYear : ℤ) : Option ℕ :=
  if minYear - 1 ≤ weekYear ∧ weekYear ≤ maxYear + 1 then some (weeksInWeekYear weekYear) else none

/-- The week year of a day in a civil year: the Thursday of its week decides. -/
def weekYearOf (year day : ℤ) : ℤ :=
  let thursday := day - isoWeekday day + 4
  if thursday < daysFromCivil year 1 1 then year - 1
  else if thursday > daysFromCivil year 12 31 then year + 1
  else year

/-- `to_iso_week` (L140-154). -/
def toIsoWeek (day : ℤ) : Option (ℤ × ℕ × ℕ) := do
  let (year, _, _) ← toCivil day
  let weekYear := weekYearOf year day
  some (weekYear, asU8 ((day - weekOneMonday weekYear).tdiv 7 + 1), isoWeekday day)

/-- `from_iso_week` (L160-169). -/
def fromIsoWeek (weekYear : ℤ) (week weekday : ℕ) : Option ℤ :=
  if ¬ (minYear - 1 ≤ weekYear ∧ weekYear ≤ maxYear + 1) ∨
      ¬ (1 ≤ week ∧ week ≤ weeksInWeekYear weekYear) ∨ ¬ (1 ≤ weekday ∧ weekday ≤ 7) then none
  else
    let day := weekOneMonday weekYear + 7 * ((week : ℤ) - 1) + ((weekday : ℤ) - 1)
    if inRange day then some day else none

/-- `to_ordinal` (L173-176). -/
def toOrdinal (day : ℤ) : Option (ℤ × ℕ) := do
  let (year, _, _) ← toCivil day
  some (year, asU16 (day - daysFromCivil year 1 1 + 1))

/-- `from_ordinal` (L180-183). -/
def fromOrdinal (year : ℤ) (ordinal : ℕ) : Option ℤ :=
  if yearInRange year ∧ 1 ≤ ordinal ∧ ordinal ≤ daysInYear year
  then some (daysFromCivil year 1 1 + ordinal - 1) else none

/-- `quarter_of_month` (L187-189). -/
def quarterOfMonth (month : ℕ) : ℕ := (month + 2) / 3

/-- `days_in_quarter` (L193-200). -/
def daysInQuarter (year : ℤ) : ℕ → ℕ
  | 1 => 62 + daysInMonth year 2
  | 2 => 91
  | 3 | 4 => 92
  | _ => 0

/-- `to_quarter` (L204-209). -/
def toQuarter (day : ℤ) : Option (ℤ × ℕ × ℕ) := do
  let (year, month, _) ← toCivil day
  let quarter := quarterOfMonth month
  let first := daysFromCivil year (3 * quarter - 2) 1
  some (year, quarter, asU8 (day - first + 1))

/-- `from_quarter` (L213-216). -/
def fromQuarter (year : ℤ) (quarter dayOfQuarter : ℕ) : Option ℤ :=
  if yearInRange year ∧ 1 ≤ dayOfQuarter ∧ dayOfQuarter ≤ daysInQuarter year quarter
  then some (daysFromCivil year (3 * quarter - 2) 1 + dayOfQuarter - 1) else none

/-! ## Years and months -/

/-- The day number of January 1. -/
def yearStart (year : ℤ) : ℤ :=
  365 * (year - 1) + (year - 1) / 4 - (year - 1) / 100 + (year - 1) / 400 - 719162

/-- The days of the year before a month. -/
def monthOffset (year : ℤ) : ℕ → ℕ
  | 0 => 0
  | 1 => 0
  | month + 2 => monthOffset year (month + 1) + daysInMonth year (month + 1)

/-- The date exists. -/
def ValidDate (year : ℤ) (month day : ℕ) : Prop := 1 ≤ day ∧ day ≤ daysInMonth year month

variable {year : ℤ} {month : ℕ}

theorem month_of_valid {day : ℕ} (h : ValidDate year month day) : 1 ≤ month ∧ month ≤ 12 := by
  obtain ⟨h₁, h₂⟩ := h
  by_contra hout
  have hzero : daysInMonth year month = 0 := by
    unfold daysInMonth
    split <;> first | rfl | omega
  omega

theorem leap_iff (year : ℤ) :
    isLeapYear year = true ↔ year % 4 = 0 ∧ (year % 100 ≠ 0 ∨ year % 400 = 0) := by
  unfold isLeapYear
  exact decide_eq_true_iff

theorem yearStart_succ (year : ℤ) : yearStart (year + 1) = yearStart year + daysInYear year := by
  unfold yearStart daysInYear
  have hleap := leap_iff year
  split
  · next h =>
    have := hleap.mp h
    push_cast
    omega
  · next h =>
    have := mt hleap.mpr h
    push_cast
    omega

theorem daysInYear_cases (year : ℤ) : daysInYear year = 365 ∨ daysInYear year = 366 := by
  unfold daysInYear
  split
  · exact Or.inr rfl
  · exact Or.inl rfl

variable {a b : ℤ}

theorem yearStart_mono (h : a < b) : yearStart a + 365 ≤ yearStart b := by
  unfold yearStart
  omega


/-- The days of whole years, counted by eras or at once. -/
theorem era_days (y : ℤ) : y / 400 * 146097 + (y % 400 * 365 + y % 400 / 4 - y % 400 / 100) =
    365 * y + y / 4 - y / 100 + y / 400 := by
  obtain ⟨e, r, hr, rfl⟩ : ∃ e r : ℤ, (0 ≤ r ∧ r < 400) ∧ y = 400 * e + r :=
    ⟨y / 400, y % 400, by omega, by omega⟩
  have h₁ : (400 * e + r) / 400 = e := by omega
  have h₂ : (400 * e + r) % 400 = r := by omega
  have h₃ : (400 * e + r) / 4 = 100 * e + r / 4 := by omega
  have h₄ : (400 * e + r) / 100 = 4 * e + r / 100 := by omega
  rw [h₁, h₂, h₃, h₄]
  ring

/-- Years from March: February and its leap day end the year. -/
theorem daysFromCivil_march (year : ℤ) (month day : ℕ) :
    daysFromCivil year month day = yearStart (if month ≤ 2 then year else year + 1) - 306 +
      (153 * (((month : ℤ) + 9) % 12) + 2) / 5 + day - 1 := by
  have hyear : ∀ y : ℤ, y / 400 * 146097 + (y % 400 * 365 + y % 400 / 4 - y % 400 / 100) =
      yearStart (y + 1) + 719162 := by
    intro y
    rw [era_days, yearStart, add_sub_cancel_right]
    ring
  unfold daysFromCivil
  split
  · have := hyear (year - 1)
    rw [sub_add_cancel] at this
    simp only
    linarith
  · have := hyear year
    simp only
    linarith

theorem daysFromCivil_eq (year : ℤ) (hmonth : 1 ≤ month ∧ month ≤ 12) (day : ℕ) :
    daysFromCivil year month day = yearStart year + monthOffset year month + day - 1 := by
  obtain ⟨hlow, hhigh⟩ := hmonth
  rw [daysFromCivil_march]
  have hsucc := yearStart_succ year
  unfold daysInYear at hsucc
  interval_cases month <;> cases hl : isLeapYear year <;> simp [monthOffset, daysInMonth, hl] at hsucc ⊢ <;> omega

theorem monthOffset_mono (year : ℤ) {a b : ℕ} (ha : 1 ≤ a) (h : a < b) :
    monthOffset year a + daysInMonth year a ≤ monthOffset year b := by
  induction b with
  | zero => omega
  | succ b ih =>
    cases b with
    | zero => omega
    | succ b =>
      rw [monthOffset]
      by_cases hab : a = b + 1
      · rw [hab]
      · have := ih (by omega)
        omega

theorem monthOffset_year (year : ℤ) :
    monthOffset year 12 + daysInMonth year 12 = daysInYear year := by
  unfold daysInYear
  cases hl : isLeapYear year <;> simp [monthOffset, daysInMonth, hl]

theorem date_in_year {day : ℕ} (h : ValidDate year month day) :
    yearStart year ≤ daysFromCivil year month day ∧
      daysFromCivil year month day < yearStart (year + 1) := by
  have hmonth := month_of_valid h
  obtain ⟨h₁, h₂⟩ := h
  rw [daysFromCivil_eq year hmonth, yearStart_succ, ← monthOffset_year]
  constructor
  · omega
  · by_cases hlast : month = 12
    · subst hlast
      omega
    · have := monthOffset_mono year hmonth.1 (show month < 12 by omega)
      omega

variable {day : ℤ}

theorem year_unique (ha : yearStart a ≤ day ∧ day < yearStart (a + 1))
    (hb : yearStart b ≤ day ∧ day < yearStart (b + 1)) : a = b := by
  rcases lt_trichotomy a b with h | h | h
  · rcases eq_or_lt_of_le (show a + 1 ≤ b by omega) with h' | h'
    · rw [h'] at ha
      omega
    · have := yearStart_mono h'
      omega
  · exact h
  · rcases eq_or_lt_of_le (show b + 1 ≤ a by omega) with h' | h'
    · rw [h'] at hb
      omega
    · have := yearStart_mono h'
      omega

variable {y : ℤ} {m d : ℕ}

theorem civil_unique {y' : ℤ} {m' d' : ℕ} (h : ValidDate y m d) (h' : ValidDate y' m' d')
    (heq : daysFromCivil y m d = daysFromCivil y' m' d') : (y, m, d) = (y', m', d') := by
  have hyear := date_in_year h
  rw [heq] at hyear
  obtain rfl := year_unique hyear (date_in_year h')
  have hm := month_of_valid h
  have hm' := month_of_valid h'
  rw [daysFromCivil_eq y hm, daysFromCivil_eq y hm'] at heq
  obtain ⟨h₁, h₂⟩ := h
  obtain ⟨h₁', h₂'⟩ := h'
  obtain hlt | rfl | hgt := lt_trichotomy m m'
  · have := monthOffset_mono y hm.1 hlt
    omega
  · have : d = d' := by omega
    rw [this]
  · have := monthOffset_mono y hm'.1 hgt
    omega

/-! ## The civil date of a day -/

/-- A day of an era: its century, its four years, its year and the day in the year from March. -/
theorem era_split {dayOfEra : ℤ} (h0 : 0 ≤ dayOfEra) (h1 : dayOfEra ≤ 146096) :
    ∃ c k r d : ℤ, (0 ≤ c ∧ c ≤ 3) ∧ (0 ≤ k ∧ k ≤ 24) ∧ (0 ≤ r ∧ r ≤ 3) ∧ (0 ≤ d ∧ d ≤ 365) ∧
      dayOfEra = 36524 * c + 1461 * k + 365 * r + d ∧ (d = 365 → r = 3 ∧ (k = 24 → c = 3)) := by
  obtain ⟨c, hc, hrem⟩ : ∃ c : ℤ, (0 ≤ c ∧ c ≤ 3) ∧ 0 ≤ dayOfEra - 36524 * c ∧
      (dayOfEra - 36524 * c ≤ 36523 ∨ c = 3 ∧ dayOfEra - 36524 * c = 36524) := by
    by_cases h : dayOfEra = 146096
    · exact ⟨3, by omega⟩
    · exact ⟨dayOfEra / 36524, by omega⟩
  obtain ⟨k, hk, hrem'⟩ : ∃ k : ℤ, (0 ≤ k ∧ k ≤ 24) ∧ 0 ≤ dayOfEra - 36524 * c - 1461 * k ∧
      dayOfEra - 36524 * c - 1461 * k ≤ 1460 := ⟨(dayOfEra - 36524 * c) / 1461, by omega⟩
  obtain ⟨r, hr, hrem''⟩ : ∃ r : ℤ, (0 ≤ r ∧ r ≤ 3) ∧
      0 ≤ dayOfEra - 36524 * c - 1461 * k - 365 * r ∧
      (dayOfEra - 36524 * c - 1461 * k - 365 * r ≤ 364 ∨
        r = 3 ∧ dayOfEra - 36524 * c - 1461 * k - 365 * r = 365) := by
    by_cases h : dayOfEra - 36524 * c - 1461 * k = 1460
    · exact ⟨3, by omega⟩
    · exact ⟨(dayOfEra - 36524 * c - 1461 * k) / 365, by omega⟩
  exact ⟨c, k, r, dayOfEra - 36524 * c - 1461 * k - 365 * r, hc, hk, hr, by omega, by omega, by omega⟩

variable {x : ℤ}

/-- The year of the era that the source computes. -/
theorem yearOfEra_eq {c k r d : ℤ} (hc : 0 ≤ c ∧ c ≤ 3) (hk : 0 ≤ k ∧ k ≤ 24) (hr : 0 ≤ r ∧ r ≤ 3)
    (hd : 0 ≤ d ∧ d ≤ 365) (hleap : d = 365 → r = 3 ∧ (k = 24 → c = 3))
    (hx : x = 36524 * c + 1461 * k + 365 * r + d) :
    yearOfEra x = 100 * c + 4 * k + r := by
  unfold yearOfEra
  obtain h | h : 24 * c + k + 365 * r + d < 1460 ∨ 1460 ≤ 24 * c + k + 365 * r + d := by omega
  · have h₁ : x / 1460 = 25 * c + k := by omega
    have h₂ : x / 36524 = c := by omega
    have h₃ : x / 146096 = 0 := by omega
    rw [h₁, h₂, h₃]
    omega
  · have h₁ : x / 1460 = 25 * c + k + 1 := by omega
    have h₂ : x / 36524 - x / 146096 = c := by
      by_cases hlast : x = 146096
      · rw [hlast]
        omega
      · have hcentury : 1461 * k + 365 * r + d ≤ 36523 := by omega
        have h₄ : x / 36524 = c := by omega
        have h₅ : x / 146096 = 0 := by omega
        rw [h₄, h₅, sub_zero]
    omega

/-- The start of the year after `y`, from the parts of the era. -/
theorem yearStart_parts {era c k r : ℤ} (hc : 0 ≤ c ∧ c ≤ 3) (hk : 0 ≤ k ∧ k ≤ 24)
    (hr : 0 ≤ r ∧ r ≤ 3) : yearStart (100 * c + 4 * k + r + era * 400 + 1) =
      era * 146097 + (36524 * c + 1461 * k + 365 * r) - 719162 := by
  have h₁ : (100 * c + 4 * k + r + era * 400) / 4 = 100 * era + 25 * c + k := by omega
  have h₂ : (100 * c + 4 * k + r + era * 400) / 100 = 4 * era + c := by omega
  have h₃ : (100 * c + 4 * k + r + era * 400) / 400 = era := by omega
  rw [yearStart, add_sub_cancel_right, h₁, h₂, h₃]
  ring

theorem asU8_of_lt (h0 : 0 ≤ x) (h1 : x < 256) : (asU8 x : ℤ) = x := by
  unfold asU8
  omega

theorem asU16_of_lt (h0 : 0 ≤ x) (h1 : x < 65536) : (asU16 x : ℤ) = x := by
  unfold asU16
  omega

/-- The months from March: the length of each, with what is left of the year for February. -/
theorem march_month {m d : ℤ} {day : ℕ} (hm : 0 ≤ m ∧ m ≤ 11)
    (hd : (153 * m + 2) / 5 ≤ d ∧ d < (153 * (m + 1) + 2) / 5)
    (hyear : d ≤ 364 ∨ d = 365 ∧ isLeapYear year = true)
    (hmonth : (month : ℤ) = if m < 10 then m + 3 else m - 9)
    (hday : (day : ℤ) = d - (153 * m + 2) / 5 + 1) : ValidDate year month day := by
  refine ⟨by omega, ?_⟩
  by_cases hfebruary : month = 2
  · subst hfebruary
    obtain rfl : m = 11 := by omega
    simp only [daysInMonth]
    obtain h | ⟨h, hleap⟩ := hyear
    · split <;> omega
    · rw [if_pos hleap]
      omega
  -- the length of every other month does not depend on the year
  · have hlow : 1 ≤ month := by omega
    have hhigh : month ≤ 12 := by omega
    interval_cases month
    all_goals simp only [daysInMonth]; omega

/-- The civil date of a day exists and has its day number. -/
theorem civilOf_spec (day : ℤ) : ValidDate (civilOf day).1 (civilOf day).2.1 (civilOf day).2.2 ∧
      daysFromCivil (civilOf day).1 (civilOf day).2.1 (civilOf day).2.2 = day := by
  have h0 : 0 ≤ (day + 719468) % 146097 := by omega
  have h1 : (day + 719468) % 146097 ≤ 146096 := by omega
  obtain ⟨c, k, r, d, hc, hk, hr, hd, hsplit, hleap⟩ := era_split h0 h1
  have hyoe := yearOfEra_eq hc hk hr hd hleap hsplit
  obtain ⟨era, hera⟩ : ∃ era, era = (day + 719468) / 146097 := ⟨_, rfl⟩
  have hday : day = era * 146097 + (36524 * c + 1461 * k + 365 * r + d) - 719468 := by
    rw [← hsplit, hera]
    omega
  have hcivil : civilOf day = civilFrom era (100 * c + 4 * k + r) d := by
    unfold civilOf
    simp only [hyoe]
    have h₁ : (100 * c + 4 * k + r) / 4 = 25 * c + k := by omega
    have h₂ : (100 * c + 4 * k + r) / 100 = c := by omega
    rw [hsplit, ← hera, h₁, h₂]
    congr 1
    ring
  rw [hcivil]
  clear hcivil hyoe hsplit h0 h1 hera
  unfold civilFrom
  obtain ⟨m, hm⟩ : ∃ m, m = (5 * d + 2) / 153 := ⟨_, rfl⟩
  have hmd : (0 ≤ m ∧ m ≤ 11) ∧ (153 * m + 2) / 5 ≤ d ∧ d < (153 * (m + 1) + 2) / 5 := by omega
  obtain ⟨month, hmonth⟩ : ∃ month : ℤ, month = if m < 10 then m + 3 else m - 9 := ⟨_, rfl⟩
  simp only [← hm, ← hmonth]
  clear hm
  have hmonth8 : (asU8 month : ℤ) = month := by
    refine asU8_of_lt ?_ ?_ <;> split at hmonth <;> omega
  have hday8 : (asU8 (d - (153 * m + 2) / 5 + 1) : ℤ) = d - (153 * m + 2) / 5 + 1 :=
    asU8_of_lt (by omega) (by omega)
  constructor
  · refine march_month hmd.1 hmd.2 ?_ (hmonth8.trans hmonth) hday8
    by_cases hlast : d = 365
    · refine Or.inr ⟨hlast, (leap_iff _).mpr ?_⟩
      obtain ⟨rfl, hcentury⟩ := hleap hlast
      have hm11 : m = 11 := by omega
      subst hm11
      have hmonth2 : month = 2 := by simpa using hmonth
      rw [hmonth2]
      simp only [le_refl, if_true]
      by_cases hk24 : k = 24
      · have := hcentury hk24
        omega
      · omega
    · exact Or.inl (by omega)
  · have hstart := @yearStart_parts era c k r hc hk hr
    have hyear : (if asU8 month ≤ 2 then
        100 * c + 4 * k + r + era * 400 + (if month ≤ 2 then 1 else 0)
        else 100 * c + 4 * k + r + era * 400 + (if month ≤ 2 then 1 else 0) + 1) =
        100 * c + 4 * k + r + era * 400 + 1 := by
      by_cases hsmall : month ≤ 2
      · rw [if_pos (by omega), if_pos hsmall]
      · rw [if_neg (by omega), if_neg hsmall, add_zero]
    have hindex : (month + 9) % 12 = m := by
      split at hmonth <;> omega
    rw [daysFromCivil_march, hyear, hstart, hmonth8, hindex, hday8, hday]
    ring

/-! ## Ranges and successors -/

theorem minEpochDay_eq : minEpochDay = yearStart minYear := by decide

theorem maxEpochDay_eq : maxEpochDay + 1 = yearStart (maxYear + 1) := by decide

theorem inRange_iff (day : ℤ) : inRange day = true ↔ minEpochDay ≤ day ∧ day ≤ maxEpochDay := by
  unfold inRange
  exact decide_eq_true_iff

theorem yearInRange_iff (year : ℤ) : yearInRange year = true ↔ minYear ≤ year ∧ year ≤ maxYear := by
  unfold yearInRange
  exact decide_eq_true_iff

theorem yearStart_le (h : a ≤ b) : yearStart a ≤ yearStart b := by
  rcases eq_or_lt_of_le h with rfl | h
  · exact le_refl _
  · have := yearStart_mono h
    omega

theorem inRange_of_year (h : yearStart year ≤ day ∧ day < yearStart (year + 1)) :
    inRange day = true ↔ yearInRange year = true := by
  rw [inRange_iff, yearInRange_iff]
  have hmin := minEpochDay_eq
  have hmax := maxEpochDay_eq
  constructor
  · rintro ⟨h₁, h₂⟩
    constructor
    · by_contra hlt
      have := yearStart_le (show year + 1 ≤ minYear by omega)
      omega
    · by_contra hgt
      have := yearStart_le (show maxYear + 1 ≤ year by omega)
      omega
  · rintro ⟨h₁, h₂⟩
    have := yearStart_le h₁
    have := yearStart_le (show year + 1 ≤ maxYear + 1 by omega)
    omega

theorem toCivil_eq_some : toCivil day = some (y, m, d) ↔
    inRange day = true ∧ ValidDate y m d ∧ daysFromCivil y m d = day := by
  obtain ⟨hvalid, hdays⟩ := civilOf_spec day
  unfold toCivil
  split
  · next hrange =>
    rw [Option.some.injEq]
    constructor
    · intro h
      rw [h] at hvalid hdays
      exact ⟨hrange, hvalid, hdays⟩
    · rintro ⟨-, hvalid', hdays'⟩
      exact civil_unique hvalid hvalid' (hdays.trans hdays'.symm)
  · next hrange => simp [hrange]

theorem toCivil_isSome (h : inRange day = true) :
    ∃ y m d, toCivil day = some (y, m, d) := ⟨_, _, _, if_pos h⟩

/-- The calendar successor, by the lengths of the months. -/
def next (year : ℤ) (month day : ℕ) : ℤ × ℕ × ℕ :=
  if day < daysInMonth year month then (year, month, day + 1)
  else if month < 12 then (year, month + 1, 1)
  else (year + 1, 1, 1)

theorem daysInMonth_pos (year : ℤ) (h : 1 ≤ month ∧ month ≤ 12) : 1 ≤ daysInMonth year month := by
  obtain ⟨hlow, hhigh⟩ := h
  interval_cases month <;> simp only [daysInMonth] <;> first | omega | (split <;> omega)

theorem daysInMonth_le (year : ℤ) (month : ℕ) : daysInMonth year month ≤ 31 := by
  unfold daysInMonth
  split <;> first | omega | (split <;> omega)

theorem yearStart_eq (year : ℤ) : daysFromCivil year 1 1 = yearStart year := by
  rw [daysFromCivil_eq year (by omega)]
  simp [monthOffset]

theorem next_days (h : ValidDate y m d) :
    ValidDate (next y m d).1 (next y m d).2.1 (next y m d).2.2 ∧
      daysFromCivil (next y m d).1 (next y m d).2.1 (next y m d).2.2 = daysFromCivil y m d + 1 := by
  have hm := month_of_valid h
  obtain ⟨h₁, h₂⟩ := h
  unfold next
  by_cases hday : d < daysInMonth y m
  · rw [if_pos hday]
    refine ⟨⟨Nat.le_add_left 1 d, hday⟩, ?_⟩
    rw [daysFromCivil_eq y hm, daysFromCivil_eq y hm]
    push_cast
    ring
  have hlast : d = daysInMonth y m := by omega
  rw [if_neg hday]
  by_cases hmonth : m < 12
  · rw [if_pos hmonth]
    have hm' : 1 ≤ m + 1 ∧ m + 1 ≤ 12 := by omega
    refine ⟨⟨Nat.le_refl 1, daysInMonth_pos y hm'⟩, ?_⟩
    obtain ⟨n, rfl⟩ : ∃ n, m = n + 1 := ⟨m - 1, by omega⟩
    rw [daysFromCivil_eq y hm, daysFromCivil_eq y hm', monthOffset, hlast]
    push_cast
    ring
  · rw [if_neg hmonth]
    obtain rfl : m = 12 := by omega
    refine ⟨⟨Nat.le_refl 1, daysInMonth_pos (y + 1) (show 1 ≤ 1 ∧ 1 ≤ 12 by omega)⟩, ?_⟩
    have hyear := monthOffset_year y
    rw [yearStart_eq, yearStart_succ, daysFromCivil_eq y hm, ← hyear, hlast]
    push_cast
    ring

end FrankenGraph.Temporal.Calendar

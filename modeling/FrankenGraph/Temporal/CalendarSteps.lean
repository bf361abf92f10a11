import FrankenGraph.Temporal.CalendarForms

/-!
# The conversions in 64-bit steps

The conversions of `crates/fgdb-types/src/temporal/calendar.rs` once more, with every step of their `i64`
arithmetic checked: an outer `none` is a step that overflows. The products of the `u8` quarter, at most
12 once the quarter is checked, stay in `ℕ`.

Results:
* `daysFromCivil_run`, `civilOf_run`, `weekOneMonday_run`: no step of the arithmetic overflows
* `calendar_exact`: all conversions over the whole range
-/

namespace FrankenGraph.Temporal.Calendar

namespace InSteps

/-- `days_from_civil` (L52-61). -/
def daysFromCivil (year : ℤ) (month day : ℕ) : Option ℤ :=
  let year : Steps 63 := if month ≤ 2 then year - 1 else year
  let era := year / 400
  let yearOfEra := year % 400
  let dayOfYear := (153 * (((month : Steps 63) + 9) % 12) + 2) / 5 + day - 1
  let dayOfEra := yearOfEra * 365 + yearOfEra / 4 - yearOfEra / 100 + dayOfYear
  (era * 146097 + dayOfEra - 719468).run

/-- `from_civil` (L72-75). -/
def fromCivil (year : ℤ) (month day : ℕ) : Option (Option ℤ) :=
  if yearInRange year ∧ 1 ≤ day ∧ day ≤ daysInMonth year month
  then (daysFromCivil year month day).map some else some none

/-- The year of the era of a day of the era. -/
def yearOfEra (dayOfEra : Steps 63) : Steps 63 :=
  (dayOfEra - dayOfEra / 1460 + dayOfEra / 36524 - dayOfEra / 146096) / 365

/-- The civil date of a day of a year of an era, with years from March. -/
def civilFrom (era yearOfEra dayOfYear : Steps 63) : Option (ℤ × ℕ × ℕ) := do
  let monthIndex ← ((5 * dayOfYear + 2) / 153).run
  let dayOfMonth ← (dayOfYear - (153 * monthIndex + 2) / 5 + 1).run
  let month ← Steps.run (if monthIndex < 10 then (monthIndex : Steps 63) + 3 else monthIndex - 9)
  let year ← (yearOfEra + era * 400 + if month ≤ 2 then 1 else 0).run
  some (year, asU8 month, asU8 dayOfMonth)

/-- The civil date of a day number, without the check of the range. -/
def civilOf (day : ℤ) : Option (ℤ × ℕ × ℕ) :=
  let shifted := (day : Steps 63) + 719468
  let dayOfEra := shifted % 146097
  let year := yearOfEra dayOfEra
  civilFrom (shifted / 146097) year (dayOfEra - (365 * year + year / 4 - year / 100))

/-- `to_civil` (L85-105). -/
def toCivil (day : ℤ) : Option (Option (ℤ × ℕ × ℕ)) :=
  if inRange day then (civilOf day).map some else some none

/-- `iso_weekday` (L110-112). -/
def isoWeekday (day : ℤ) : Option ℕ :=
  (((day : Steps 63) % 7 + 3) % 7 + 1).run.map asU8

/-- `week_one_monday` (L116-119). -/
def weekOneMonday (weekYear : ℤ) : Option ℤ := do
  let januaryFourth ← daysFromCivil weekYear 1 4
  let weekday ← isoWeekday januaryFourth
  (januaryFourth - ((weekday : Steps 63) - 1)).run

/-- `weeks_in_week_year` (L123-125). -/
def weeksInWeekYear (weekYear : ℤ) : Option ℕ := do
  let later ← weekOneMonday (← ((weekYear : Steps 63) + 1).run)
  let first ← weekOneMonday weekYear
  let days ← ((later : Steps 63) - first).run
  some (asU8 (days.tdiv 7))

/-- The week year of a day in a civil year: the Thursday of its week decides. -/
def weekYearOf (year day : ℤ) : Option ℤ := do
  let thursday ← ((day : Steps 63) - (← isoWeekday day) + 4).run
  if thursday < (← daysFromCivil year 1 1) then ((year : Steps 63) - 1).run
  else if thursday > (← daysFromCivil year 12 31) then ((year : Steps 63) + 1).run
  else some year

/-- `to_iso_week` (L140-154). -/
def toIsoWeek (day : ℤ) : Option (Option (ℤ × ℕ × ℕ)) := do
  match ← toCivil day with
  | none => some none
  | some (year, _, _) =>
    let weekYear ← weekYearOf year day
    let days ← ((day : Steps 63) - (← weekOneMonday weekYear)).run
    let week ← ((days.tdiv 7 : Steps 63) + 1).run
    some (some (weekYear, asU8 week, ← isoWeekday day))

/-- `from_iso_week` (L160-169). -/
def fromIsoWeek (weekYear : ℤ) (week weekday : ℕ) : Option (Option ℤ) :=
  if ¬ (minYear - 1 ≤ weekYear ∧ weekYear ≤ maxYear + 1) then some none
  else do
    if ¬ (1 ≤ week ∧ week ≤ (← weeksInWeekYear weekYear)) ∨ ¬ (1 ≤ weekday ∧ weekday ≤ 7)
    then some none
    else
      let day ← ((← weekOneMonday weekYear) + 7 * ((week : Steps 63) - 1)
        + ((weekday : Steps 63) - 1)).run
      some (if inRange day then some day else none)

/-- `to_ordinal` (L173-176). -/
def toOrdinal (day : ℤ) : Option (Option (ℤ × ℕ)) := do
  match ← toCivil day with
  | none => some none
  | some (year, _, _) =>
    let ordinal ← ((day : Steps 63) - (← daysFromCivil year 1 1) + 1).run
    some (some (year, asU16 ordinal))

/-- `from_ordinal` (L180-183). -/
def fromOrdinal (year : ℤ) (ordinal : ℕ) : Option (Option ℤ) := do
  if yearInRange year ∧ 1 ≤ ordinal ∧ ordinal ≤ daysInYear year then
    let day ← ((← daysFromCivil year 1 1) + (ordinal : Steps 63) - 1).run
    some (some day)
  else some none

/-- `to_quarter` (L204-209). -/
def toQuarter (day : ℤ) : Option (Option (ℤ × ℕ × ℕ)) := do
  match ← toCivil day with
  | none => some none
  | some (year, month, _) =>
    let quarter := quarterOfMonth month
    let first ← daysFromCivil year (3 * quarter - 2) 1
    let day ← ((day : Steps 63) - first + 1).run
    some (some (year, quarter, asU8 day))

/-- `from_quarter` (L213-216). -/
def fromQuarter (year : ℤ) (quarter dayOfQuarter : ℕ) : Option (Option ℤ) := do
  if yearInRange year ∧ 1 ≤ dayOfQuarter ∧ dayOfQuarter ≤ daysInQuarter year quarter then
    let day ← ((← daysFromCivil year (3 * quarter - 2) 1) + (dayOfQuarter : Steps 63) - 1).run
    some (some day)
  else some none

open Steps Option

variable {year day : ℤ} {month : ℕ}

theorem daysFromCivil_run {day : ℕ} (hyear : minYear - 2 ≤ year ∧ year ≤ maxYear + 2)
    (hmonth : month ≤ 12) (hday : day ≤ 31) :
    daysFromCivil year month day = some (Calendar.daysFromCivil year month day) := by
  unfold minYear maxYear at hyear
  unfold daysFromCivil Calendar.daysFromCivil
  split <;>
    simp (disch := (unfold Fits; omega)) only [ofNat_val, one_val, add_val, sub_val, mul_val, div_val,
      mod_val, run_val]

theorem daysFromCivil_bound {day : ℕ} (month : ℕ) (hyear : minYear - 2 ≤ year ∧ year ≤ maxYear + 2)
    (hday : day ≤ 31) : -(10 : ℤ) ^ 12 ≤ Calendar.daysFromCivil year month day ∧
      Calendar.daysFromCivil year month day ≤ 10 ^ 12 := by
  unfold minYear maxYear at hyear
  unfold Calendar.daysFromCivil
  split <;> dsimp only <;> omega

/-- The first day of a month of a year in range is computed, and leaves room for a year's days. -/
theorem monthStart_run (hyear : minYear ≤ year ∧ year ≤ maxYear) (hmonth : month ≤ 12) :
    daysFromCivil year month 1 = some (Calendar.daysFromCivil year month 1) ∧
      -(10 : ℤ) ^ 12 ≤ Calendar.daysFromCivil year month 1 ∧
      Calendar.daysFromCivil year month 1 ≤ 10 ^ 12 := by
  have hnear : minYear - 2 ≤ year ∧ year ≤ maxYear + 2 := by omega
  exact ⟨daysFromCivil_run hnear hmonth (by omega), daysFromCivil_bound month hnear (by omega)⟩

theorem fromCivil_run (year : ℤ) (month day : ℕ) :
    fromCivil year month day = some (Calendar.fromCivil year month day) := by
  unfold fromCivil Calendar.fromCivil
  split
  · next h =>
    have hyear := (yearInRange_iff year).mp h.1
    have hmonth := (month_of_valid h.2).2
    have hday := h.2.2.trans (daysInMonth_le year month)
    rw [daysFromCivil_run (by omega) hmonth hday, map_some]
  · rfl

theorem yearOfEra_val {r : ℤ} (h : 0 ≤ r ∧ r < 146097) :
    yearOfEra (val r) = val (Calendar.yearOfEra r) := by
  unfold yearOfEra Calendar.yearOfEra
  simp (disch := (unfold Fits; omega)) only [ofNat_val, add_val, sub_val, div_val]

theorem civilFrom_val {era year dayOfYear : ℤ} (hera : -3000000 ≤ era ∧ era ≤ 3000000)
    (hyear : 0 ≤ year ∧ year ≤ 400) (hday : -200000 ≤ dayOfYear ∧ dayOfYear ≤ 200000) :
    civilFrom (val era) (val year) (val dayOfYear) = some (Calendar.civilFrom era year dayOfYear) := by
  unfold civilFrom Calendar.civilFrom
  simp (disch := (unfold Fits; omega)) only [ofNat_val, one_val, zero_val, add_val, sub_val, mul_val,
    div_val, run_val, bind_eq_bind, bind_some]
  by_cases hmonth : (5 * dayOfYear + 2) / 153 < 10 <;>
    simp only [hmonth, reduceIte, run_val, bind_some] <;> split <;>
      simp (disch := (unfold Fits; omega)) only [add_val, run_val, bind_some]

theorem civilOf_run (h : inRange day = true) : civilOf day = some (Calendar.civilOf day) := by
  obtain ⟨hlow, hhigh⟩ := (inRange_iff day).mp h
  unfold minEpochDay at hlow
  unfold maxEpochDay at hhigh
  unfold civilOf Calendar.civilOf
  have hera : 0 ≤ (day + 719468) % 146097 ∧ (day + 719468) % 146097 < 146097 := by omega
  have hyear : 0 ≤ Calendar.yearOfEra ((day + 719468) % 146097) ∧
      Calendar.yearOfEra ((day + 719468) % 146097) ≤ 400 := by
    unfold Calendar.yearOfEra
    omega
  simp (disch := (unfold Fits; omega)) only [ofNat_val, add_val, sub_val, mul_val, div_val, mod_val,
    yearOfEra_val hera]
  exact civilFrom_val (by omega) hyear (by omega)

theorem toCivil_run (day : ℤ) : toCivil day = some (Calendar.toCivil day) := by
  unfold toCivil Calendar.toCivil
  split
  · next h => rw [civilOf_run h, map_some]
  · rfl

theorem isoWeekday_run (day : ℤ) : isoWeekday day = some (Calendar.isoWeekday day) := by
  unfold isoWeekday Calendar.isoWeekday
  simp (disch := (unfold Fits; omega)) only [ofNat_val, one_val, add_val, mod_val, run_val, map_some]

theorem weekOneMonday_run (h : minYear - 2 ≤ year ∧ year ≤ maxYear + 2) :
    weekOneMonday year = some (Calendar.weekOneMonday year) := by
  have hbound := daysFromCivil_bound 1 h (show 4 ≤ 31 by omega)
  have hweekday := isoWeekday_eq (Calendar.daysFromCivil year 1 4)
  unfold weekOneMonday Calendar.weekOneMonday
  rw [daysFromCivil_run h (by omega) (by omega)]
  simp (disch := (unfold Fits; omega)) only [isoWeekday_run, one_val, sub_val, run_val,
    bind_eq_bind, bind_some]

theorem weekOneMonday_bound (h : minYear - 2 ≤ year ∧ year ≤ maxYear + 2) :
    -(10 : ℤ) ^ 13 ≤ Calendar.weekOneMonday year ∧ Calendar.weekOneMonday year ≤ 10 ^ 13 := by
  have hbound := daysFromCivil_bound 1 h (show 4 ≤ 31 by omega)
  have hweekday := isoWeekday_eq (Calendar.daysFromCivil year 1 4)
  unfold Calendar.weekOneMonday
  dsimp only
  omega

theorem weeksInWeekYear_run (h : minYear - 1 ≤ year ∧ year ≤ maxYear + 1) :
    weeksInWeekYear year = some (Calendar.weeksInWeekYear year) := by
  have hnear : minYear - 2 ≤ year ∧ year ≤ maxYear + 2 := by omega
  have hnear' : minYear - 2 ≤ year + 1 ∧ year + 1 ≤ maxYear + 2 := by omega
  have hfirst := weekOneMonday_bound hnear
  have hnext := weekOneMonday_bound hnear'
  unfold minYear maxYear at h
  unfold weeksInWeekYear Calendar.weeksInWeekYear
  simp (disch := (unfold Fits; omega)) only [weekOneMonday_run hnear, weekOneMonday_run hnear', one_val,
    add_val, sub_val, run_val, bind_eq_bind, bind_some]

theorem fromIsoWeek_run (year : ℤ) (week weekday : ℕ) :
    fromIsoWeek year week weekday = some (Calendar.fromIsoWeek year week weekday) := by
  unfold fromIsoWeek Calendar.fromIsoWeek
  by_cases hyear : minYear - 1 ≤ year ∧ year ≤ maxYear + 1
  · obtain ⟨hcount, -⟩ := weekYear_length year
    have hnear : minYear - 2 ≤ year ∧ year ≤ maxYear + 2 := by omega
    have hbound := weekOneMonday_bound hnear
    rw [if_neg (not_not.mpr hyear), weeksInWeekYear_run hyear, weekOneMonday_run hnear]
    simp only [hyear, and_self, not_true, false_or, bind_eq_bind, bind_some]
    split
    · rfl
    · next hfields =>
      simp (disch := (unfold Fits; omega)) only [ofNat_val, one_val, add_val, sub_val, mul_val, run_val,
        bind_some]
  · rw [if_pos hyear, if_pos (Or.inl hyear)]

/-- A day in range lies in a year in range. -/
theorem year_near {d : ℕ} (h : Calendar.toCivil day = some (year, month, d)) :
    (minYear ≤ year ∧ year ≤ maxYear) ∧ -(10 : ℤ) ^ 12 ≤ day ∧ day ≤ 10 ^ 12 := by
  obtain ⟨hrange, hyear⟩ := year_of_civil h
  obtain ⟨hlow, hhigh⟩ := (inRange_iff day).mp hrange
  unfold minEpochDay at hlow
  unfold maxEpochDay at hhigh
  exact ⟨(yearInRange_iff _).mp ((inRange_of_year hyear).mp hrange), by omega⟩

theorem weekYearOf_run (hyear : minYear ≤ year ∧ year ≤ maxYear)
    (hday : -(10 : ℤ) ^ 12 ≤ day ∧ day ≤ 10 ^ 12) :
    weekYearOf year day = some (Calendar.weekYearOf year day) := by
  have hweekday := isoWeekday_eq day
  unfold weekYearOf Calendar.weekYearOf
  rw [(monthStart_run hyear (by omega)).1, daysFromCivil_run (by omega) (by omega) (by omega)]
  unfold minYear maxYear at hyear
  simp (disch := (unfold Fits; omega)) only [isoWeekday_run, ofNat_val, one_val, add_val, sub_val,
    run_val, bind_eq_bind, bind_some]
  split
  · rfl
  · split <;> rfl

theorem toIsoWeek_run (day : ℤ) : toIsoWeek day = some (Calendar.toIsoWeek day) := by
  unfold toIsoWeek Calendar.toIsoWeek
  rw [toCivil_run]
  rcases hcivil : Calendar.toCivil day with _ | ⟨y, m, d⟩
  · rfl
  · obtain ⟨hyear, hday⟩ := year_near hcivil
    obtain ⟨hnear, hspec⟩ := weekYearOf_spec (year_of_civil hcivil).2
    have hweekYear : minYear - 2 ≤ Calendar.weekYearOf y day ∧
      Calendar.weekYearOf y day ≤ maxYear + 2 := by omega
    have hbound := weekOneMonday_bound hweekYear
    simp only [bind_eq_bind, bind_some, weekYearOf_run hyear hday]
    rw [weekOneMonday_run hweekYear]
    simp (disch := (unfold Fits; omega)) only [isoWeekday_run, one_val, sub_val, run_val, bind_some]
    rw [Int.tdiv_eq_ediv_of_nonneg (by omega)]
    simp (disch := (unfold Fits; omega)) only [add_val, run_val, bind_some]

theorem toOrdinal_run (day : ℤ) : toOrdinal day = some (Calendar.toOrdinal day) := by
  unfold toOrdinal Calendar.toOrdinal
  rw [toCivil_run]
  rcases hcivil : Calendar.toCivil day with _ | ⟨y, m, d⟩
  · rfl
  · obtain ⟨hyear, hday⟩ := year_near hcivil
    obtain ⟨hrun, hbound⟩ := monthStart_run hyear (show 1 ≤ 12 by omega)
    simp only [bind_eq_bind, bind_some]
    rw [hrun]
    simp (disch := (unfold Fits; omega)) only [one_val, add_val, sub_val, run_val, bind_some]

theorem fromOrdinal_run (year : ℤ) (ordinal : ℕ) :
    fromOrdinal year ordinal = some (Calendar.fromOrdinal year ordinal) := by
  unfold fromOrdinal Calendar.fromOrdinal
  split
  · next h =>
    have hcases := daysInYear_cases year
    obtain ⟨hrun, hbound⟩ := monthStart_run ((yearInRange_iff year).mp h.1) (show 1 ≤ 12 by omega)
    rw [hrun]
    simp (disch := (unfold Fits; omega)) only [one_val, add_val, sub_val, run_val, bind_eq_bind,
      bind_some]
  · rfl

theorem toQuarter_run (day : ℤ) : toQuarter day = some (Calendar.toQuarter day) := by
  unfold toQuarter Calendar.toQuarter
  rw [toCivil_run]
  rcases hcivil : Calendar.toCivil day with _ | ⟨y, m, d⟩
  · rfl
  · obtain ⟨hyear, hday⟩ := year_near hcivil
    have hquarter := quarterOfMonth_range (month_of_valid (toCivil_eq_some.mp hcivil).2.1)
    obtain ⟨hrun, hbound⟩ := monthStart_run hyear (show 3 * quarterOfMonth m - 2 ≤ 12 by omega)
    simp only [bind_eq_bind, bind_some]
    rw [hrun]
    simp (disch := (unfold Fits; omega)) only [one_val, add_val, sub_val, run_val, bind_some]

theorem fromQuarter_run (year : ℤ) (quarter dayOfQuarter : ℕ) :
    fromQuarter year quarter dayOfQuarter = some (Calendar.fromQuarter year quarter dayOfQuarter) := by
  unfold fromQuarter Calendar.fromQuarter
  split
  · next h =>
    have hquarter := quarter_of_days h.2
    have hlen := (quarterOffset_cases year hquarter).1
    obtain ⟨hrun, hbound⟩ :=
      monthStart_run ((yearInRange_iff year).mp h.1) (show 3 * quarter - 2 ≤ 12 by omega)
    rw [hrun]
    simp (disch := (unfold Fits; omega)) only [one_val, add_val, sub_val, run_val, bind_eq_bind,
      bind_some]
  · rfl

end InSteps

/-- Every arithmetic step of the conversions fits in an `i64`, for every argument. -/
def NoOverflow : Prop :=
  (∀ day, InSteps.toCivil day = some (toCivil day)) ∧
  (∀ year month day, InSteps.fromCivil year month day = some (fromCivil year month day)) ∧
  (∀ day, InSteps.toIsoWeek day = some (toIsoWeek day)) ∧
  (∀ year week weekday, InSteps.fromIsoWeek year week weekday = some (fromIsoWeek year week weekday)) ∧
  (∀ day, InSteps.toOrdinal day = some (toOrdinal day)) ∧
  (∀ year ordinal, InSteps.fromOrdinal year ordinal = some (fromOrdinal year ordinal)) ∧
  (∀ day, InSteps.toQuarter day = some (toQuarter day)) ∧
  ∀ year quarter day, InSteps.fromQuarter year quarter day = some (fromQuarter year quarter day)

theorem noOverflow : NoOverflow :=
  ⟨InSteps.toCivil_run, InSteps.fromCivil_run, InSteps.toIsoWeek_run, InSteps.fromIsoWeek_run,
    InSteps.toOrdinal_run, InSteps.fromOrdinal_run, InSteps.toQuarter_run, InSteps.fromQuarter_run⟩

/-! ## What the fields mean -/

variable {day y : ℤ} {n : ℕ}

/-- Day 0 is Thursday, January 1 of 1970, and the weekdays follow one another. -/
theorem epoch : toCivil 0 = some (1970, 1, 1) ∧ isoWeekday 0 = 4 ∧
    ∀ day, isoWeekday (day + 1) = isoWeekday day % 7 + 1 := by
  refine ⟨by decide, by decide, fun day => ?_⟩
  have h := isoWeekday_eq day
  have h' := isoWeekday_eq (day + 1)
  omega

/-- Week one starts on the Monday of the week of January 4. -/
theorem weekOneMonday_monday (y : ℤ) : isoWeekday (weekOneMonday y) = 1 ∧
    weekOneMonday y ≤ daysFromCivil y 1 4 ∧ daysFromCivil y 1 4 < weekOneMonday y + 7 := by
  have hmonday := isoWeekday_eq (weekOneMonday y)
  have hfourth := isoWeekday_eq (daysFromCivil y 1 4)
  have hspec := (weekOneMonday_spec y).1
  refine ⟨by omega, ?_⟩
  unfold weekOneMonday
  dsimp only
  omega

theorem toIsoWeek_weekday {w : ℕ} (h : toIsoWeek day = some (y, w, n)) :
    n = isoWeekday day ∧ day = weekOneMonday y + 7 * ((w : ℤ) - 1) + ((n : ℤ) - 1) := by
  obtain ⟨-, -, hn, hday⟩ := toIsoWeek_eq_some.mp h
  have hweekday := isoWeekday_eq day
  have hspec := (weekOneMonday_spec y).1
  exact ⟨by omega, hday.symm⟩

/-- The first day of a month of a year in range. -/
theorem fromCivil_first {m : ℕ} (hyear : yearInRange y = true) (hm : 1 ≤ m ∧ m ≤ 12) :
    fromCivil y m 1 = some (daysFromCivil y m 1) :=
  if_pos ⟨hyear, le_refl 1, daysInMonth_pos y hm⟩

theorem toOrdinal_first (h : toOrdinal day = some (y, n)) : fromCivil y 1 1 = some (day - (n - 1)) := by
  obtain ⟨hrange, hn, hday⟩ := toOrdinal_eq_some.mp h
  have hlen := yearStart_succ y
  rw [fromCivil_first ((inRange_of_year (by omega)).mp hrange) (by omega), yearStart_eq]
  congr 1
  omega

theorem toQuarter_first {q : ℕ} (h : toQuarter day = some (y, q, n)) :
    (∃ m d, toCivil day = some (y, m, d) ∧ q = (m + 2) / 3) ∧
      fromCivil y (3 * q - 2) 1 = some (day - (n - 1)) := by
  obtain ⟨hrange, hn, hday⟩ := toQuarter_eq_some.mp h
  have hq := quarter_of_days hn
  have hlen := yearStart_succ y
  have hin := quarter_in_year y hn
  refine ⟨?_, ?_⟩
  · unfold toQuarter at h
    simp only [Option.bind_eq_bind, Option.bind_eq_some_iff, Option.some.injEq, Prod.mk.injEq] at h
    obtain ⟨⟨y', m, d⟩, hcivil, rfl, rfl, -⟩ := h
    exact ⟨m, d, hcivil, rfl⟩
  · rw [fromCivil_first ((inRange_of_year (by omega)).mp hrange) (by omega), quarterFirst_eq y hq]
    congr 1
    omega

/-- The conversions are exact: day 0 is January 1 of 1970 and every day in range has a valid civil date
whose successor is the date of the next day; fields denote a day exactly when the conversion of the day
gives them; weekdays count from Monday, weeks from the week of January 4, 52 or 53 in a week year,
ordinals from January 1 and days of a quarter from the first day of its first month; and nothing
overflows. -/
theorem calendar_exact :
    (toCivil 0 = some (1970, 1, 1) ∧ isoWeekday 0 = 4 ∧
      ∀ day, isoWeekday (day + 1) = isoWeekday day % 7 + 1) ∧
    (∀ day, inRange day = true → ∃ y m d, toCivil day = some (y, m, d) ∧ ValidDate y m d ∧
      (inRange (day + 1) = true → toCivil (day + 1) = some (next y m d))) ∧
    (∀ y m d day, fromCivil y m d = some day ↔ toCivil day = some (y, m, d)) ∧
    (∀ y w n day, fromIsoWeek y w n = some day ↔ toIsoWeek day = some (y, w, n)) ∧
    (∀ y n day, fromOrdinal y n = some day ↔ toOrdinal day = some (y, n)) ∧
    (∀ y q n day, fromQuarter y q n = some day ↔ toQuarter day = some (y, q, n)) ∧
    (∀ day, inRange day = true →
      (toIsoWeek day).isSome ∧ (toOrdinal day).isSome ∧ (toQuarter day).isSome) ∧
    (∀ y, isoWeekday (weekOneMonday y) = 1 ∧ weekOneMonday y ≤ daysFromCivil y 1 4 ∧
      daysFromCivil y 1 4 < weekOneMonday y + 7 ∧ (weeksInWeekYear y = 52 ∨ weeksInWeekYear y = 53) ∧
      weekOneMonday (y + 1) = weekOneMonday y + 7 * weeksInWeekYear y) ∧
    (∀ day y w n, toIsoWeek day = some (y, w, n) → 1 ≤ w ∧ w ≤ weeksInWeekYear y ∧
      n = isoWeekday day ∧ day = weekOneMonday y + 7 * ((w : ℤ) - 1) + ((n : ℤ) - 1)) ∧
    (∀ day y n, toOrdinal day = some (y, n) → fromCivil y 1 1 = some (day - (n - 1))) ∧
    (∀ day y q n, toQuarter day = some (y, q, n) →
      (∃ m d, toCivil day = some (y, m, d) ∧ q = (m + 2) / 3) ∧
      fromCivil y (3 * q - 2) 1 = some (day - (n - 1))) ∧
    NoOverflow := by
  refine ⟨epoch, fun day h => ?_, fun _ _ _ _ => fromCivil_iff, fun _ _ _ _ => fromIsoWeek_iff,
    fun _ _ _ => fromOrdinal_iff, fun _ _ _ _ => fromQuarter_iff, fun day h => ?_, fun y => ?_,
    fun day y w n h => ?_, fun _ _ _ => toOrdinal_first, fun _ _ _ _ => toQuarter_first, noOverflow⟩
  · obtain ⟨y, m, d, hcivil⟩ := toCivil_isSome h
    obtain ⟨-, hvalid, hdays⟩ := toCivil_eq_some.mp hcivil
    obtain ⟨hnext, hnextDays⟩ := next_days hvalid
    refine ⟨y, m, d, hcivil, hvalid, fun hrange => ?_⟩
    generalize next y m d = date at hnext hnextDays ⊢
    obtain ⟨y', m', d'⟩ := date
    exact toCivil_eq_some.mpr ⟨hrange, hnext, hnextDays.trans (by rw [hdays])⟩
  · obtain ⟨y, m, d, hcivil⟩ := toCivil_isSome h
    simp [toIsoWeek, toOrdinal, toQuarter, hcivil]
  · obtain ⟨hmonday, hlow, hhigh⟩ := weekOneMonday_monday y
    obtain ⟨hcount, hlen⟩ := weekYear_length y
    exact ⟨hmonday, hlow, hhigh, hcount, hlen⟩
  · obtain ⟨-, hw, -, -⟩ := toIsoWeek_eq_some.mp h
    exact ⟨hw.1, hw.2, toIsoWeek_weekday h⟩

end FrankenGraph.Temporal.Calendar

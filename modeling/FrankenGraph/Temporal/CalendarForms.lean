import FrankenGraph.Temporal.Calendar

/-!
# Week, ordinal and quarter dates

Each form is settled by one equivalence: the fields denote a day exactly when the conversion of the day
gives the fields. The conversions back are then inverse by definition.

Results:
* `toOrdinal_eq_some`, `toQuarter_eq_some`, `toIsoWeek_eq_some`: what the fields of a day are
* `weekOneMonday_spec`, `weekYear_length`: where the weeks of a year start and how many there are
-/

namespace FrankenGraph.Temporal.Calendar

open List Option

/-! ## Ordinals and quarters -/

variable {y day : ℤ} {m : ℕ}

/-- Fields of a year in range, once checked, denote the days in range of that year. -/
theorem checked_iff {P : Prop} [Decidable (yearInRange y = true ∧ P)] {v : ℤ}
    (hyear : P → yearStart y ≤ v ∧ v < yearStart (y + 1)) :
    (if yearInRange y = true ∧ P then some v else none) = some day ↔
      inRange day = true ∧ P ∧ v = day := by
  split
  · next h =>
    rw [some.injEq]
    constructor
    · rintro rfl
      exact ⟨(inRange_of_year (hyear h.2)).mpr h.1, h.2, rfl⟩
    · exact fun h' => h'.2.2
  · next h =>
    constructor
    · intro h'
      cases h'
    · rintro ⟨hrange, hp, rfl⟩
      exact absurd ⟨(inRange_of_year (hyear hp)).mp hrange, hp⟩ h

theorem fromCivil_iff {d : ℕ} : fromCivil y m d = some day ↔ toCivil day = some (y, m, d) := by
  rw [toCivil_eq_some]
  exact checked_iff date_in_year

/-- A day is in range and in the year of its civil date. -/
theorem year_of_civil {d : ℕ} (h : toCivil day = some (y, m, d)) :
    inRange day = true ∧ yearStart y ≤ day ∧ day < yearStart (y + 1) := by
  obtain ⟨hrange, hvalid, rfl⟩ := toCivil_eq_some.mp h
  exact ⟨hrange, date_in_year hvalid⟩

variable {n : ℕ}

theorem toOrdinal_eq_some : toOrdinal day = some (y, n) ↔
    inRange day = true ∧ (1 ≤ n ∧ n ≤ daysInYear y) ∧ yearStart y + n - 1 = day := by
  have hlen := yearStart_succ y
  unfold toOrdinal
  constructor
  · intro h
    simp only [bind_eq_bind, bind_eq_some_iff, some.injEq, Prod.mk.injEq] at h
    obtain ⟨⟨y', m, d⟩, hcivil, hy, hn⟩ := h
    obtain rfl : y' = y := hy
    obtain ⟨hrange, hyear⟩ := year_of_civil hcivil
    have hcases := daysInYear_cases y'
    rw [yearStart_eq] at hn
    have hcast : (asU16 (day - yearStart y' + 1) : ℤ) = day - yearStart y' + 1 :=
      asU16_of_lt (by omega) (by omega)
    rw [hn] at hcast
    exact ⟨hrange, by omega, by omega⟩
  · rintro ⟨hrange, hn, hday⟩
    obtain ⟨y', m, d, hcivil⟩ := toCivil_isSome hrange
    have hyear := (year_of_civil hcivil).2
    have hcases := daysInYear_cases y
    obtain rfl : y' = y := year_unique hyear (by omega)
    have hcast : (asU16 (day - yearStart y' + 1) : ℤ) = day - yearStart y' + 1 :=
      asU16_of_lt (by omega) (by omega)
    simp only [hcivil, bind_eq_bind, bind_some, some.injEq, Prod.mk.injEq, true_and, yearStart_eq]
    omega

theorem fromOrdinal_iff : fromOrdinal y n = some day ↔ toOrdinal day = some (y, n) := by
  have hlen := yearStart_succ y
  rw [toOrdinal_eq_some]
  unfold fromOrdinal
  rw [yearStart_eq]
  exact checked_iff fun hn => by omega

/-- The days of the year before a quarter. -/
def quarterOffset (y : ℤ) (q : ℕ) : ℕ := monthOffset y (3 * q - 2)

variable {q : ℕ}

theorem quarter_of_days (h : 1 ≤ n ∧ n ≤ daysInQuarter y q) : 1 ≤ q ∧ q ≤ 4 := by
  by_contra hout
  have hzero : daysInQuarter y q = 0 := by
    unfold daysInQuarter
    split <;> first | rfl | omega
  omega

/-- The quarters of a year follow one another. -/
theorem quarterOffset_cases (y : ℤ) (h : 1 ≤ q ∧ q ≤ 4) : daysInQuarter y q ≤ 92 ∧
    quarterOffset y q + daysInQuarter y q = if q = 4 then daysInYear y else quarterOffset y (q + 1) := by
  obtain ⟨hlow, hhigh⟩ := h
  unfold daysInYear
  interval_cases q <;> cases hl : isLeapYear y <;>
    simp [quarterOffset, daysInQuarter, monthOffset, daysInMonth, hl]

theorem quarterOffset_mono (y : ℤ) {p : ℕ} (hp : 1 ≤ p) (hpq : p < q) (hq : q ≤ 4) :
    quarterOffset y p + daysInQuarter y p ≤ quarterOffset y q := by
  induction q with
  | zero => omega
  | succ q ih =>
    by_cases heq : p = q
    · subst heq
      have := (quarterOffset_cases y (show 1 ≤ p ∧ p ≤ 4 by omega)).2
      rw [if_neg (by omega)] at this
      omega
    · have h₁ := ih (by omega) (by omega)
      have h₂ := (quarterOffset_cases y (show 1 ≤ q ∧ q ≤ 4 by omega)).2
      rw [if_neg (by omega)] at h₂
      omega

theorem quarter_in_year (y : ℤ) (h : 1 ≤ n ∧ n ≤ daysInQuarter y q) :
    quarterOffset y q + n ≤ daysInYear y := by
  have hq := quarter_of_days h
  have hcases := quarterOffset_cases y (show 1 ≤ 4 ∧ 4 ≤ 4 by omega)
  rw [if_pos rfl] at hcases
  by_cases hlast : q = 4
  · subst hlast
    omega
  · have := quarterOffset_mono y hq.1 (show q < 4 by omega) (Nat.le_refl 4)
    omega

/-- The quarter of a month holds it. -/
theorem quarter_of_month (y : ℤ) {d : ℕ} (h : ValidDate y m d) :
    quarterOffset y (quarterOfMonth m) < monthOffset y m + d ∧
      monthOffset y m + d ≤ quarterOffset y (quarterOfMonth m) + daysInQuarter y (quarterOfMonth m) := by
  have hm := month_of_valid h
  obtain ⟨h₁, h₂⟩ := h
  obtain ⟨hlow, hhigh⟩ := hm
  interval_cases m <;> cases hl : isLeapYear y <;>
    simp [quarterOffset, quarterOfMonth, daysInQuarter, monthOffset, daysInMonth, hl] at h₂ ⊢ <;> omega

theorem quarterFirst_eq (y : ℤ) (h : 1 ≤ q ∧ q ≤ 4) :
    daysFromCivil y (3 * q - 2) 1 = yearStart y + quarterOffset y q := by
  rw [daysFromCivil_eq y (by omega), quarterOffset]
  push_cast
  ring

theorem quarterOfMonth_range (h : 1 ≤ m ∧ m ≤ 12) : 1 ≤ quarterOfMonth m ∧ quarterOfMonth m ≤ 4 := by
  unfold quarterOfMonth
  omega

theorem toQuarter_eq_some : toQuarter day = some (y, q, n) ↔
    inRange day = true ∧ (1 ≤ n ∧ n ≤ daysInQuarter y q) ∧
      yearStart y + quarterOffset y q + n - 1 = day := by
  unfold toQuarter
  constructor
  · intro h
    simp only [bind_eq_bind, bind_eq_some_iff, some.injEq, Prod.mk.injEq] at h
    obtain ⟨⟨y', m, d⟩, hcivil, hy, hq, hn⟩ := h
    obtain rfl : y' = y := hy
    obtain rfl : quarterOfMonth m = q := hq
    obtain ⟨hrange, hvalid, hdays⟩ := toCivil_eq_some.mp hcivil
    have hm := month_of_valid hvalid
    have hquarter := quarterOfMonth_range hm
    have hin := quarter_of_month y' hvalid
    have hlen := (quarterOffset_cases y' hquarter).1
    rw [quarterFirst_eq y' hquarter] at hn
    rw [daysFromCivil_eq y' hm] at hdays
    have hcast : (asU8 (day - (yearStart y' + quarterOffset y' (quarterOfMonth m)) + 1) : ℤ) =
        day - (yearStart y' + quarterOffset y' (quarterOfMonth m)) + 1 :=
      asU8_of_lt (by omega) (by omega)
    rw [hn] at hcast
    exact ⟨hrange, by omega, by omega⟩
  · rintro ⟨hrange, hn, hday⟩
    obtain ⟨y', m, d, hcivil⟩ := toCivil_isSome hrange
    obtain ⟨-, hvalid, hdays⟩ := toCivil_eq_some.mp hcivil
    have hyear := (year_of_civil hcivil).2
    have hbound := quarter_in_year y hn
    have hlen := yearStart_succ y
    obtain rfl : y' = y := year_unique hyear (by omega)
    have hm := month_of_valid hvalid
    have hquarter := quarterOfMonth_range hm
    have hin := quarter_of_month y' hvalid
    rw [daysFromCivil_eq y' hm] at hdays
    have hq := quarter_of_days hn
    have hsame : quarterOfMonth m = q := by
      rcases lt_trichotomy (quarterOfMonth m) q with hlt | heq | hgt
      · have := quarterOffset_mono y' hquarter.1 hlt hq.2
        omega
      · exact heq
      · have := quarterOffset_mono y' hq.1 hgt hquarter.2
        omega
    have hsmall := (quarterOffset_cases y' hq).1
    have hcast : (asU8 (day - (yearStart y' + quarterOffset y' q) + 1) : ℤ) =
        day - (yearStart y' + quarterOffset y' q) + 1 := asU8_of_lt (by omega) (by omega)
    simp only [hcivil, bind_eq_bind, bind_some, some.injEq, Prod.mk.injEq,
      true_and, hsame, quarterFirst_eq y' hq]
    omega

theorem fromQuarter_iff : fromQuarter y q n = some day ↔ toQuarter day = some (y, q, n) := by
  rw [toQuarter_eq_some]
  unfold fromQuarter
  rw [checked_iff fun hn => ?_]
  · refine and_congr_right fun _ => and_congr_right fun hn => ?_
    rw [quarterFirst_eq y (quarter_of_days hn)]
  · have := quarter_in_year y hn
    have := yearStart_succ y
    rw [quarterFirst_eq y (quarter_of_days hn)]
    omega

/-! ## Weeks -/

theorem isoWeekday_eq (day : ℤ) : (isoWeekday day : ℤ) = (day + 3) % 7 + 1 := by
  unfold isoWeekday
  rw [asU8_of_lt (by omega) (by omega)]
  omega

/-- Week one starts on the Monday within three days of January 1. -/
theorem weekOneMonday_spec (y : ℤ) : weekOneMonday y % 7 = 4 ∧
    yearStart y - 3 ≤ weekOneMonday y ∧ weekOneMonday y ≤ yearStart y + 3 := by
  have hfourth : daysFromCivil y 1 4 = yearStart y + 3 := by
    rw [daysFromCivil_eq y (by omega)]
    simp [monthOffset]
    ring
  unfold weekOneMonday
  rw [hfourth]
  simp only [isoWeekday_eq]
  omega

/-- A week year has 52 or 53 weeks. -/
theorem weekYear_length (y : ℤ) : (weeksInWeekYear y = 52 ∨ weeksInWeekYear y = 53) ∧
      weekOneMonday (y + 1) = weekOneMonday y + 7 * weeksInWeekYear y := by
  have h := weekOneMonday_spec y
  have h' := weekOneMonday_spec (y + 1)
  have hlen := yearStart_succ y
  have hcases := daysInYear_cases y
  unfold weeksInWeekYear
  rw [Int.tdiv_eq_ediv_of_nonneg (by omega)]
  have hcast : (asU8 ((weekOneMonday (y + 1) - weekOneMonday y) / 7) : ℤ) =
      (weekOneMonday (y + 1) - weekOneMonday y) / 7 := asU8_of_lt (by omega) (by omega)
  omega

theorem weekOneMonday_mono {a b : ℤ} (h : a < b) : weekOneMonday (a + 1) ≤ weekOneMonday b := by
  rcases eq_or_lt_of_le (show a + 1 ≤ b by omega) with rfl | h'
  · exact le_refl _
  · have h₁ := weekOneMonday_spec (a + 1)
    have h₂ := weekOneMonday_spec b
    have := yearStart_mono h'
    omega

theorem weekYear_unique {a b : ℤ} (ha : weekOneMonday a ≤ day ∧ day < weekOneMonday (a + 1))
    (hb : weekOneMonday b ≤ day ∧ day < weekOneMonday (b + 1)) : a = b := by
  rcases lt_trichotomy a b with h | h | h
  · have := weekOneMonday_mono h
    omega
  · exact h
  · have := weekOneMonday_mono h
    omega

/-- The Thursday decides the week year, and the week year holds the day. -/
theorem weekYearOf_spec (h : yearStart y ≤ day ∧ day < yearStart (y + 1)) :
    (weekYearOf y day = y - 1 ∨ weekYearOf y day = y ∨ weekYearOf y day = y + 1) ∧
      weekOneMonday (weekYearOf y day) ≤ day ∧ day < weekOneMonday (weekYearOf y day + 1) := by
  have hdecember : daysFromCivil y 12 31 = yearStart (y + 1) - 1 := by
    have := monthOffset_year y
    rw [daysFromCivil_eq y (by omega), yearStart_succ, ← this]
    simp [daysInMonth]
    ring
  have hweekday := isoWeekday_eq day
  have hmon : ∀ a, weekOneMonday a % 7 = 4 ∧ yearStart a - 3 ≤ weekOneMonday a ∧
      weekOneMonday a ≤ yearStart a + 3 := weekOneMonday_spec
  unfold weekYearOf
  simp only [yearStart_eq, hdecember]
  split
  · have h₁ := hmon (y - 1)
    have h₂ := hmon y
    have h₃ := yearStart_mono (show y - 1 < y by omega)
    refine ⟨Or.inl rfl, ?_⟩
    rw [sub_add_cancel]
    omega
  · split
    · have h₁ := hmon (y + 1)
      have h₂ := hmon (y + 1 + 1)
      have h₃ := yearStart_mono (show y + 1 < y + 1 + 1 by omega)
      exact ⟨Or.inr (Or.inr rfl), by omega⟩
    · have h₁ := hmon y
      have h₂ := hmon (y + 1)
      exact ⟨Or.inr (Or.inl rfl), by omega⟩

theorem toIsoWeek_eq_some {w : ℕ} : toIsoWeek day = some (y, w, n) ↔
    inRange day = true ∧ (1 ≤ w ∧ w ≤ weeksInWeekYear y) ∧ (1 ≤ n ∧ n ≤ 7) ∧
      weekOneMonday y + 7 * ((w : ℤ) - 1) + ((n : ℤ) - 1) = day := by
  unfold toIsoWeek
  have hweekday := isoWeekday_eq day
  constructor
  · intro h
    simp only [bind_eq_bind, bind_eq_some_iff, some.injEq, Prod.mk.injEq] at h
    obtain ⟨⟨y', m, d⟩, hcivil, rfl, hw, rfl⟩ := h
    obtain ⟨hrange, hyear⟩ := year_of_civil hcivil
    obtain ⟨-, hspec⟩ := weekYearOf_spec hyear
    obtain ⟨hcount, hlen⟩ := weekYear_length (weekYearOf y' day)
    have hmon := weekOneMonday_spec (weekYearOf y' day)
    generalize weekYearOf y' day = wy at hw hspec hcount hlen hmon ⊢
    rw [Int.tdiv_eq_ediv_of_nonneg (by omega)] at hw
    have hcast : (asU8 ((day - weekOneMonday wy) / 7 + 1) : ℤ) = (day - weekOneMonday wy) / 7 + 1 :=
      asU8_of_lt (by omega) (by omega)
    rw [hw] at hcast
    exact ⟨hrange, by omega, by omega, by omega⟩
  · rintro ⟨hrange, hw, hn, hday⟩
    obtain ⟨y', m, d, hcivil⟩ := toCivil_isSome hrange
    obtain ⟨-, hspec⟩ := weekYearOf_spec (year_of_civil hcivil).2
    obtain ⟨hcount, hlen⟩ := weekYear_length y
    have hmon := weekOneMonday_spec y
    have hsame : weekYearOf y' day = y := weekYear_unique hspec (by omega)
    have hcast : (asU8 ((day - weekOneMonday y) / 7 + 1) : ℤ) = (day - weekOneMonday y) / 7 + 1 :=
      asU8_of_lt (by omega) (by omega)
    simp only [hcivil, bind_eq_bind, bind_some, some.injEq, Prod.mk.injEq, hsame, true_and]
    rw [Int.tdiv_eq_ediv_of_nonneg (by omega)]
    omega

/-- The week year of a day in range is at most one year out of range. -/
theorem weekYear_range (hrange : inRange day = true)
    (h : weekOneMonday y ≤ day ∧ day < weekOneMonday (y + 1)) :
    minYear - 1 ≤ y ∧ y ≤ maxYear + 1 := by
  obtain ⟨y', m, d, hcivil⟩ := toCivil_isSome hrange
  have hyear := (year_of_civil hcivil).2
  obtain ⟨hnear, hspec⟩ := weekYearOf_spec hyear
  rw [weekYear_unique hspec h] at hnear
  have := (yearInRange_iff y').mp ((inRange_of_year hyear).mp hrange)
  omega

theorem fromIsoWeek_iff {w : ℕ} :
    fromIsoWeek y w n = some day ↔ toIsoWeek day = some (y, w, n) := by
  rw [toIsoWeek_eq_some]
  unfold fromIsoWeek
  obtain ⟨hcount, hlen⟩ := weekYear_length y
  by_cases hfields : (minYear - 1 ≤ y ∧ y ≤ maxYear + 1) ∧ (1 ≤ w ∧ w ≤ weeksInWeekYear y) ∧
      (1 ≤ n ∧ n ≤ 7)
  · rw [if_neg (by simp only [not_or, not_not]; exact hfields)]
    simp only
    split
    · next hrange =>
      rw [some.injEq]
      constructor
      · rintro rfl
        exact ⟨hrange, hfields.2.1, hfields.2.2, rfl⟩
      · exact fun h => h.2.2.2
    · next hrange =>
      constructor
      · intro h
        cases h
      · rintro ⟨h, -, -, rfl⟩
        exact absurd h hrange
  · rw [if_pos (by simp only [← not_and_or]; exact hfields)]
    constructor
    · intro h
      cases h
    · rintro ⟨hrange, hw, hn, hday⟩
      exact absurd ⟨weekYear_range hrange (by omega), hw, hn⟩ hfields

end FrankenGraph.Temporal.Calendar

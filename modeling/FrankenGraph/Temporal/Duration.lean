import FrankenGraph.Library.Fallible
import FrankenGraph.Library.Signed

/-!
# Durations and their scaling

`CanonicalDuration` of `crates/fgdb-types/src/temporal/duration.rs` (L13-166): months, days
and nanoseconds, and the product with a ratio. Each component is scaled and truncated toward zero, and
what is left over cascades down.

Results:
* `checkedScale_eq_ok`: what a successful scaling computes
* `length_scale`: the lengths differ by a remainder of the last division
* `scale_neg`: the negated ratio
-/

namespace FrankenGraph.Temporal

/-- `NANOS_PER_SECOND`. -/
def nanosPerSecond : ℤ := 1000000000

/-- `SECONDS_PER_AVERAGE_MONTH`. -/
def secondsPerAverageMonth : ℤ := 2629746

/-- `MAX_TIME_NANOS`. -/
def maxTimeNanos : ℤ := (2 ^ 63 - 1) * nanosPerSecond + (nanosPerSecond - 1)

/-- `DAY_NANOS` of `checked_scale`. -/
def dayLength : ℤ := 86400 * nanosPerSecond

/-- `MONTH_NANOS` of `checked_scale`. -/
def monthLength : ℤ := secondsPerAverageMonth * nanosPerSecond

/-- `enum DurationError` (L32-37). -/
inductive DurationError
  | outOfRange
  | malformed
deriving DecidableEq

/-- `struct CanonicalDuration` (L24-28); `new` admits no other time part. -/
structure CanonicalDuration where
  months : I64
  days : I64
  nanos : ℤ
  bounded : -maxTimeNanos ≤ nanos ∧ nanos ≤ maxTimeNanos
deriving DecidableEq

namespace CanonicalDuration

/-- `CanonicalDuration::new` (L64-73). -/
def new (months days : I64) (nanos : ℤ) : Except DurationError CanonicalDuration :=
  if h : nanos > maxTimeNanos ∨ nanos < -maxTimeNanos then .error .outOfRange
  else .ok ⟨months, days, nanos, by omega, by omega⟩

/-- A checked operation on `i128`, with `ok_or_else(out)`. -/
def i128 (x : ℤ) : Except DurationError ℤ :=
  if Fits 127 x then .ok x else .error .outOfRange

/-- `i64::try_from`, with `map_err`. -/
def i64 (x : ℤ) : Except DurationError I64 :=
  match checkedInt 63 x with
  | some x => .ok x
  | none => .error .outOfRange

/-- `CanonicalDuration::checked_scale` (L121-153). -/
def checkedScale (self : CanonicalDuration) (numerator denominator : ℤ) :
    Except DurationError CanonicalDuration :=
  if denominator ≤ 0 then .error .outOfRange
  else do
    let months ← i128 (self.months.1 * numerator)
    let wholeMonths := months.tdiv denominator
    let leftMonths := months.tmod denominator
    let days ← i128 (self.days.1 * numerator)
    let days ← i128 (days * dayLength)
    let left ← i128 (leftMonths * monthLength)
    let dayNanos ← i128 (days + left)
    let dayUnit ← i128 (denominator * dayLength)
    let wholeDays := dayNanos.tdiv dayUnit
    let leftNanos := dayNanos - wholeDays * dayUnit
    let nanos ← i128 (self.nanos * numerator)
    let time ← i128 (nanos + leftNanos)
    let wholeMonths ← i64 wholeMonths
    let wholeDays ← i64 wholeDays
    new wholeMonths wholeDays (time.tdiv denominator)

/-- `CanonicalDuration::checked_neg` (L160-166). -/
def checkedNeg (self : CanonicalDuration) : Except DurationError CanonicalDuration := do
  let months ← i64 (-self.months.1)
  let days ← i64 (-self.days.1)
  new months days (-self.nanos)

/-- The length in nanoseconds, with an average month. -/
def length (self : CanonicalDuration) : ℤ :=
  self.months.1 * monthLength + self.days.1 * dayLength + self.nanos

/-! ## Inversion -/

theorem i128_eq_ok {x y : ℤ} : i128 x = .ok y ↔ Fits 127 x ∧ y = x := by
  unfold i128
  split
  · next h => simp [h, eq_comm]
  · next h => simp [h]

theorem i64_eq_ok {x : ℤ} {y : I64} : i64 x = .ok y ↔ x = y.1 := by
  rw [← checkedInt_eq_some]
  unfold i64
  cases checkedInt 63 x <;> simp

theorem new_eq_ok {months days : I64} {nanos : ℤ} {d : CanonicalDuration} :
    new months days nanos = .ok d ↔ months = d.months ∧ days = d.days ∧ nanos = d.nanos := by
  unfold new
  split
  · next h =>
    constructor
    · intro h'
      cases h'
    · rintro ⟨-, -, rfl⟩
      have := d.bounded
      omega
  · obtain ⟨months', days', nanos', bounded⟩ := d
    simp

/-! ## Scaling -/

variable {d result : CanonicalDuration} {n q : ℤ}

/-- What is left of the months, in nanoseconds over `q`, joins the days. -/
def dayNanos (d : CanonicalDuration) (n q : ℤ) : ℤ :=
  d.days.1 * n * dayLength + (d.months.1 * n).tmod q * monthLength

/-- What is left of the days joins the time. -/
def timeNanos (d : CanonicalDuration) (n q : ℤ) : ℤ :=
  d.nanos * n + (d.dayNanos n q).tmod (q * dayLength)

/-- All values the scaling computes fit. -/
structure Computed (d : CanonicalDuration) (n q : ℤ) : Prop where
  pos : 0 < q
  months : Fits 127 (d.months.1 * n)
  days : Fits 127 (d.days.1 * n)
  dayLengths : Fits 127 (d.days.1 * n * dayLength)
  left : Fits 127 ((d.months.1 * n).tmod q * monthLength)
  dayNanos : Fits 127 (d.dayNanos n q)
  unit : Fits 127 (q * dayLength)
  nanos : Fits 127 (d.nanos * n)
  time : Fits 127 (d.timeNanos n q)

theorem sub_tdiv_mul (a b : ℤ) : a - a.tdiv b * b = a.tmod b := by
  have := Int.mul_tdiv_add_tmod a b
  rw [Int.mul_comm] at this
  omega

/-- A successful scaling: every intermediate value fits, and each component is truncated. -/
theorem checkedScale_eq_ok : d.checkedScale n q = .ok result ↔
    Computed d n q ∧ result.months.1 = (d.months.1 * n).tdiv q ∧
      result.days.1 = (d.dayNanos n q).tdiv (q * dayLength) ∧
      result.nanos = (d.timeNanos n q).tdiv q := by
  unfold checkedScale
  by_cases hq : q ≤ 0
  · rw [if_pos hq]
    constructor
    · intro h
      cases h
    · rintro ⟨h, -⟩
      exact absurd h.pos (by omega)
  rw [if_neg hq]
  simp only [bind_eq_ok, i128_eq_ok, i64_eq_ok, new_eq_ok, sub_tdiv_mul]
  constructor
  · rintro ⟨_, ⟨h₁, rfl⟩, _, ⟨h₂, rfl⟩, _, ⟨h₃, rfl⟩, _, ⟨h₄, rfl⟩, _, ⟨h₅, rfl⟩, _, ⟨h₆, rfl⟩, _,
      ⟨h₇, rfl⟩, _, ⟨h₈, rfl⟩, months, hmonths, days, hdays, rfl, rfl, hnanos⟩
    exact ⟨⟨by omega, h₁, h₂, h₃, h₄, h₅, h₆, h₇, h₈⟩, hmonths.symm, hdays.symm, hnanos.symm⟩
  · rintro ⟨h, hmonths, hdays, hnanos⟩
    exact ⟨_, ⟨h.months, rfl⟩, _, ⟨h.days, rfl⟩, _, ⟨h.dayLengths, rfl⟩, _, ⟨h.left, rfl⟩, _,
      ⟨h.dayNanos, rfl⟩, _, ⟨h.unit, rfl⟩, _, ⟨h.nanos, rfl⟩, _, ⟨h.time, rfl⟩, _, hmonths.symm, _,
      hdays.symm, rfl, rfl, hnanos.symm⟩

theorem length_scale (h : d.checkedScale n q = .ok result) :
    q * result.length + (d.timeNanos n q).tmod q = n * d.length := by
  obtain ⟨-, hmonths, hdays, hnanos⟩ := checkedScale_eq_ok.mp h
  have h₁ := Int.mul_tdiv_add_tmod (d.months.1 * n) q
  have h₂ := Int.mul_tdiv_add_tmod (d.dayNanos n q) (q * dayLength)
  have h₃ := Int.mul_tdiv_add_tmod (d.timeNanos n q) q
  rw [← hmonths] at h₁
  rw [← hdays] at h₂
  rw [← hnanos] at h₃
  have hday : d.dayNanos n q = d.days.1 * n * dayLength + (d.months.1 * n).tmod q * monthLength := rfl
  have htime : d.timeNanos n q = d.nanos * n + (d.dayNanos n q).tmod (q * dayLength) := rfl
  unfold length
  linear_combination monthLength * h₁ + h₂ + h₃ + hday + htime

theorem checkedNeg_eq_ok {d' : CanonicalDuration} : d.checkedNeg = .ok d' ↔
    d'.months.1 = -d.months.1 ∧ d'.days.1 = -d.days.1 ∧ d'.nanos = -d.nanos := by
  unfold checkedNeg
  simp only [bind_eq_ok, i64_eq_ok, new_eq_ok]
  constructor
  · rintro ⟨months, hmonths, days, hdays, rfl, rfl, hnanos⟩
    exact ⟨hmonths.symm, hdays.symm, hnanos.symm⟩
  · rintro ⟨hmonths, hdays, hnanos⟩
    exact ⟨_, hmonths.symm, _, hdays.symm, rfl, rfl, hnanos.symm⟩

theorem dayNanos_neg : d.dayNanos (-n) q = -d.dayNanos n q := by
  unfold dayNanos
  rw [mul_neg, mul_neg, Int.neg_tmod]
  ring

theorem timeNanos_neg : d.timeNanos (-n) q = -d.timeNanos n q := by
  unfold timeNanos
  rw [dayNanos_neg, Int.neg_tmod]
  ring

/-- Both ratios scale: the results are each other's negation. -/
theorem scale_neg {result' : CanonicalDuration} (h : d.checkedScale n q = .ok result)
    (h' : d.checkedScale (-n) q = .ok result') : result.checkedNeg = .ok result' := by
  obtain ⟨-, hmonths, hdays, hnanos⟩ := checkedScale_eq_ok.mp h
  obtain ⟨-, hmonths', hdays', hnanos'⟩ := checkedScale_eq_ok.mp h'
  refine checkedNeg_eq_ok.mpr ⟨?_, ?_, ?_⟩
  · rw [hmonths', hmonths, mul_neg, Int.neg_tdiv]
  · rw [hdays', hdays, dayNanos_neg, Int.neg_tdiv]
  · rw [hnanos', hnanos, timeNanos_neg, Int.neg_tdiv]

/-- The least values of `i128` and `i64` have no negation. -/
def NoNegation (d result : CanonicalDuration) (n q : ℤ) : Prop :=
  (∃ x ∈ [d.months.1 * n, d.days.1 * n, d.days.1 * n * dayLength,
      (d.months.1 * n).tmod q * monthLength, d.dayNanos n q, d.nanos * n, d.timeNanos n q],
    x = -2 ^ 127) ∨ result.months.1 = -2 ^ 63 ∨ result.days.1 = -2 ^ 63

/-- The negated ratio scales too, unless a value on the way is the least of its type. -/
theorem scale_neg_exists (h : d.checkedScale n q = .ok result)
    (hneg : ¬ NoNegation d result n q) : ∃ result', d.checkedScale (-n) q = .ok result' := by
  obtain ⟨hc, hmonths, hdays, hnanos⟩ := checkedScale_eq_ok.mp h
  simp only [NoNegation, List.mem_cons, List.not_mem_nil, or_false, exists_eq_or_imp, exists_eq_left,
    not_or] at hneg
  obtain ⟨⟨h₁, h₂, h₃, h₄, h₅, h₆, h₇⟩, h₈, h₉⟩ := hneg
  have hm : Fits 63 (-result.months.1) := fits_neg result.months.2 h₈
  have hd : Fits 63 (-result.days.1) := fits_neg result.days.2 h₉
  have hb := result.bounded
  refine ⟨⟨⟨_, hm⟩, ⟨_, hd⟩, -result.nanos, by omega, by omega⟩, ?_⟩
  refine checkedScale_eq_ok.mpr ⟨⟨hc.pos, ?_, ?_, ?_, ?_, ?_, hc.unit, ?_, ?_⟩, ?_, ?_, ?_⟩
  · rw [mul_neg]
    exact fits_neg hc.months h₁
  · rw [mul_neg]
    exact fits_neg hc.days h₂
  · rw [mul_neg, neg_mul]
    exact fits_neg hc.dayLengths h₃
  · rw [mul_neg, Int.neg_tmod, neg_mul]
    exact fits_neg hc.left h₄
  · rw [dayNanos_neg]
    exact fits_neg hc.dayNanos h₅
  · rw [mul_neg]
    exact fits_neg hc.nanos h₆
  · rw [timeNanos_neg]
    exact fits_neg hc.time h₇
  · change -result.months.1 = _
    rw [hmonths, mul_neg, Int.neg_tdiv]
  · change -result.days.1 = _
    rw [hdays, dayNanos_neg, Int.neg_tdiv]
  · change -result.nanos = _
    rw [hnanos, timeNanos_neg, Int.neg_tdiv]

/-- Scaling loses less than a nanosecond: the components are truncated one after another, the length of
the result is within a nanosecond of the exact product, and the negated ratio gives the negated
result, unless a value on the way is the least of its type. -/
theorem scale_exact (h : d.checkedScale n q = .ok result) :
    (0 < q ∧ result.months.1 = (d.months.1 * n).tdiv q ∧
      result.days.1 = (d.days.1 * n * dayLength + (d.months.1 * n).tmod q * monthLength).tdiv
        (q * dayLength) ∧
      result.nanos = (d.nanos * n + (d.days.1 * n * dayLength +
        (d.months.1 * n).tmod q * monthLength).tmod (q * dayLength)).tdiv q) ∧
    |(result.length : ℚ) - n / q * d.length| < 1 ∧
    (∀ result', d.checkedScale (-n) q = .ok result' → result.checkedNeg = .ok result') ∧
    (¬ NoNegation d result n q →
      ∃ result', d.checkedScale (-n) q = .ok result' ∧ result.checkedNeg = .ok result') := by
  obtain ⟨hc, hmonths, hdays, hnanos⟩ := checkedScale_eq_ok.mp h
  refine ⟨⟨hc.pos, hmonths, hdays, hnanos⟩, ?_, fun result' h' => scale_neg h h', fun hneg => ?_⟩
  · have hlength : (q : ℚ) * result.length + ((d.timeNanos n q).tmod q : ℤ) = n * d.length := by
      exact_mod_cast length_scale h
    have hpos : (0 : ℚ) < q := by exact_mod_cast hc.pos
    have hrem : |(((d.timeNanos n q).tmod q : ℤ) : ℚ)| < q := by
      exact_mod_cast abs_tmod_lt (d.timeNanos n q) hc.pos
    have hdiff : (result.length : ℚ) - n / q * d.length = -((d.timeNanos n q).tmod q : ℤ) / q := by
      field_simp
      linarith
    rw [hdiff, abs_div, abs_neg, abs_of_pos hpos, div_lt_one hpos]
    exact hrem
  · obtain ⟨result', h'⟩ := scale_neg_exists h hneg
    exact ⟨result', h', scale_neg h h'⟩

/-- Half of a duration of one month and one nanosecond. -/
theorem scale_exact_half :
    let whole : CanonicalDuration := ⟨⟨1, by decide⟩, ⟨0, by decide⟩, 1, by decide⟩
    let half : CanonicalDuration := ⟨⟨0, by decide⟩, ⟨15, by decide⟩, 18873000000000, by decide⟩
    whole.checkedScale 1 2 = .ok half ∧
      |(half.length : ℚ) - (1 : ℤ) / (2 : ℤ) * whole.length| < 1 := by
  intro whole half
  have hscale : whole.checkedScale 1 2 = .ok half := by decide +kernel
  exact ⟨hscale, (scale_exact hscale).2.1⟩

/-- The least number of months scales by `2⁶⁴ / 2⁸⁰`, but not by the negated ratio, although the negated
result exists: the product of the months with `-2⁶⁴` does not fit. -/
theorem scale_neg_fails :
    ∃ d result result' : CanonicalDuration, d.checkedScale (2 ^ 64) (2 ^ 80) = .ok result ∧
      result.checkedNeg = .ok result' ∧
      d.checkedScale (-2 ^ 64) (2 ^ 80) = .error .outOfRange :=
  ⟨⟨⟨-2 ^ 63, by decide⟩, ⟨0, by decide⟩, 0, by decide⟩,
    ⟨⟨-2 ^ 47, by decide⟩, ⟨0, by decide⟩, 0, by decide⟩,
    ⟨⟨2 ^ 47, by decide⟩, ⟨0, by decide⟩, 0, by decide⟩, by decide +kernel, by decide +kernel,
    by decide +kernel⟩

end CanonicalDuration

end FrankenGraph.Temporal

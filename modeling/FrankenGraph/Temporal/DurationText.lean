import FrankenGraph.Temporal.Duration

/-!
# The text of a duration

The parser and the display of `crates/fgdb-types/src/temporal/duration.rs` (L181-503). A
text is a list of characters. The loop over the designators of a part consumes a character at least, so
the length of the part is fuel enough.

Results:
* `decimal_showInt`: the decimals that `Display` writes are read back, up to eighteen digits
* `parsePart_item`: one count and its designator
* `parseIso_eq`: what the text of a duration is read as, and `duration_text_iff`: when it is read back
-/

namespace FrankenGraph.Temporal

open List Except

open CanonicalDuration (i128 i64)

/-- A text. -/
abbrev Text := List Char

/-- `SCALE`. -/
def scale : ℤ := 1000000000

/-- `enum DurationUnit` (L221-232), the units a text can name. -/
inductive DurationUnit
  | years
  | months
  | weeks
  | days
  | hours
  | minutes
  | seconds

/-- `struct Builder` (L207-215). -/
structure Builder where
  months : ℤ
  days : ℤ
  scaledNanos : ℤ

namespace Builder

/-- `Builder::default`. -/
def default : Builder := ⟨0, 0, 0⟩

/-- The closure `scaled` of `Builder::add`. -/
def scaled (count fraction perUnit : ℤ) : Except DurationError ℤ := do
  let count ← i128 (count * scale)
  let count ← i128 (count + fraction)
  i128 (count * perUnit)

/-- `Builder::add_month_fraction` (L319-325). -/
def addMonthFraction (self : Builder) (fraction : ℤ) : Except DurationError Builder := do
  let scaled := fraction * secondsPerAverageMonth * nanosPerSecond
  let day := 86400 * nanosPerSecond * scale
  let days ← i128 (self.days + scaled.tdiv day)
  let scaledNanos ← i128 (self.scaledNanos + scaled.tmod day)
  pure { self with days, scaledNanos }

/-- A count of a unit of time, `perUnit` nanoseconds long. -/
def addTime (self : Builder) (whole fraction perUnit : ℤ) : Except DurationError Builder := do
  let time ← scaled whole fraction perUnit
  let scaledNanos ← i128 (self.scaledNanos + time)
  pure { self with scaledNanos }

/-- `Builder::add` (L257-315). -/
def add (self : Builder) (unit : DurationUnit) (whole fraction : ℤ) : Except DurationError Builder :=
  match unit with
  | .years => do
    let months ← scaled whole fraction 12
    let total ← i128 (self.months + months.tdiv scale)
    addMonthFraction { self with months := total } (months.tmod scale)
  | .months => do
    let total ← i128 (self.months + whole)
    addMonthFraction { self with months := total } fraction
  | .weeks => do
    let days ← scaled whole fraction 7
    let total ← i128 (self.days + days.tdiv scale)
    let scaledNanos ← i128 (self.scaledNanos + days.tmod scale * 86400 * nanosPerSecond)
    pure { self with days := total, scaledNanos }
  | .days => do
    let total ← i128 (self.days + whole)
    let scaledNanos ← i128 (self.scaledNanos + fraction * 86400 * nanosPerSecond)
    pure { self with days := total, scaledNanos }
  | .hours => addTime self whole fraction (3600 * nanosPerSecond)
  | .minutes => addTime self whole fraction (60 * nanosPerSecond)
  | .seconds => addTime self whole fraction nanosPerSecond

/-- `rounded_div` (L342-350). -/
def roundedDiv (value divisor : ℤ) : ℤ :=
  if |value.tmod divisor| * 2 ≥ divisor then value.tdiv divisor + value.sign
  else value.tdiv divisor

/-- `Builder::finish` (L327-334). -/
def finish (self : Builder) : Except DurationError CanonicalDuration := do
  let months ← i64 self.months
  let days ← i64 self.days
  CanonicalDuration.new months days (roundedDiv self.scaledNanos scale)

end Builder

/-! ## Parsing -/

/-- The number that decimal digits spell. -/
def readNat (digits : Text) : ℕ :=
  digits.foldl (fun value digit => value * 10 + (digit.toNat - 48)) 0

/-- A decimal separator. -/
def isSeparator (c : Char) : Bool := c == '.' || c == ','

/-- The digits of `decimal` after the sign, as a whole part and a fraction in `10⁻⁹`. -/
def decimalDigits (digits : Text) : Except DurationError (ℤ × ℤ) :=
  let whole := digits.takeWhile fun c => !isSeparator c
  let tail := digits.dropWhile fun c => !isSeparator c
  let fraction := tail.drop 1
  if whole.isEmpty || whole.length > 18 || fraction.length > 9 || !whole.all Char.isDigit ||
      !fraction.all Char.isDigit || (!tail.isEmpty && fraction.isEmpty) then .error .malformed
  else .ok (readNat whole, readNat ((fraction ++ List.replicate 9 '0').take 9))

/-- `decimal` (L354-382). -/
def decimal (text : Text) : Except DurationError (ℤ × ℤ) :=
  match text with
  | '-' :: digits => (decimalDigits digits).map fun count => (-count.1, -count.2)
  | digits => decimalDigits digits

/-- The designators of a part with their units, in their order. -/
abbrev Table := List (Char × DurationUnit)

/-- `YMWD`. -/
def dateTable : Table := [('Y', .years), ('M', .months), ('W', .weeks), ('D', .days)]

/-- `HMS`. -/
def timeTable : Table := [('H', .hours), ('M', .minutes), ('S', .seconds)]

/-- The loop of `parse_designators` over one part. -/
def parsePart (table : Table) : ℕ → ℕ → Builder × Bool → Text → Except DurationError (Builder × Bool)
  | 0, _, state, part => if part.isEmpty then .ok state else .error .malformed
  | fuel + 1, next, state, part =>
    if part.isEmpty then .ok state
    else
      match part.dropWhile fun c => !c.isAlpha with
      | [] => .error .malformed
      | designator :: rest =>
        match (table.drop next).findIdx? fun entry => entry.1 == designator with
        | none => .error .malformed
        | some place => do
          let (whole, fraction) ← decimal (part.takeWhile fun c => !c.isAlpha)
          match table[place + next]? with
          | none => .error .malformed
          | some (_, unit) => do
            let builder ← state.1.add unit whole fraction
            parsePart table fuel (place + next + 1) (builder, true) rest

/-- `parse_designators` (L385-424). -/
def parseDesignators (body : Text) : Except DurationError CanonicalDuration := do
  let date := body.takeWhile fun c => c != 'T'
  let (builder, any) ← match body.dropWhile fun c => c != 'T' with
    | [] => parsePart dateTable date.length 0 (.default, false) date
    | _ :: time =>
      if time.isEmpty then .error .malformed
      else do
        let state ← parsePart dateTable date.length 0 (.default, false) date
        parsePart timeTable time.length 0 state time
  if any then builder.finish else .error .malformed

/-- The checked counts of `parse_alternative`. -/
def addCounts : Builder → List (Text × DurationUnit × ℕ) → Except DurationError Builder
  | builder, [] => .ok builder
  | builder, (count, unit, digits) :: counts =>
    if count.length != digits || !count.all Char.isDigit then .error .malformed
    else do
      let builder ← builder.add unit (readNat count) 0
      addCounts builder counts

/-- `parse_alternative` (L428-455). -/
def parseAlternative (body : Text) : Except DurationError CanonicalDuration :=
  match body.dropWhile fun c => c != 'T' with
  | [] => .error .malformed
  | _ :: time =>
    match (body.takeWhile fun c => c != 'T').splitOn '-', time.splitOn ':' with
    | [year, month, day], [hour, minute, second] => do
      let builder ← addCounts .default [(year, .years, 4), (month, .months, 2), (day, .days, 2),
        (hour, .hours, 2), (minute, .minutes, 2)]
      if second.length < 2 || !(second.take 2).all Char.isDigit then .error .malformed
      else
        let (whole, fraction) ← decimal second
        let builder ← builder.add .seconds whole fraction
        builder.finish
    | _, _ => .error .malformed

/-- The body of a duration text, after `P`. -/
def parseBody (body : Text) : Except DurationError CanonicalDuration :=
  if (body.take 4).length = 4 ∧ (body.take 4).all Char.isDigit ∧ body[4]? = some '-' then
    parseAlternative body
  else parseDesignators body

/-- `CanonicalDuration::parse_iso` (L181-201). -/
def parseIso : Text → Except DurationError CanonicalDuration
  | '-' :: 'P' :: body => do
    let parsed ← parseBody body
    parsed.checkedNeg
  | 'P' :: body => parseBody body
  | _ => .error .malformed

/-! ## Display -/

/-- The character of a decimal digit. -/
def digitChar (digit : ℕ) : Char := Char.ofNat (48 + digit)

/-- `Display` of an unsigned integer. -/
def showNat (n : ℕ) : Text :=
  if n = 0 then ['0'] else ((Nat.digits 10 n).reverse.map digitChar)

/-- `Display` of a signed integer. -/
def showInt (n : ℤ) : Text := if n < 0 then '-' :: showNat n.natAbs else showNat n.natAbs

/-- A count with its designator, unless it is zero. -/
def showCount (count : ℤ) (designator : Char) : Text :=
  if count ≠ 0 then showInt count ++ [designator] else []

/-- `{fraction:09}` without its trailing zeros. -/
def showFraction (fraction : ℕ) : Text :=
  let digits := List.replicate (9 - (showNat fraction).length) '0' ++ showNat fraction
  (digits.reverse.dropWhile (· == '0')).reverse

/-- The count of seconds, with a fraction unless it is zero. -/
def showSeconds (rest : ℤ) : Text :=
  let fraction := rest.natAbs % 1000000000
  (if rest < 0 then ['-'] else []) ++ showNat (rest.natAbs / 1000000000) ++
    (if fraction ≠ 0 then '.' :: showFraction fraction else [])

/-- The time part of a text, after `T`. -/
def showTime (nanos : ℤ) : Text :=
  let hour := 3600 * nanosPerSecond
  let minute := 60 * nanosPerSecond
  let rest := (nanos.tmod hour).tmod minute
  showCount (nanos.tdiv hour) 'H' ++ showCount ((nanos.tmod hour).tdiv minute) 'M' ++
    if rest ≠ 0 then showSeconds rest ++ ['S'] else []

/-- `Display for CanonicalDuration` (L463-503). -/
def display (d : CanonicalDuration) : Text :=
  'P' :: (showCount (d.months.1.tdiv 12) 'Y' ++ showCount (d.months.1.tmod 12) 'M' ++
    showCount d.days.1 'D' ++
    if d.nanos = 0 then if d.months.1 = 0 ∧ d.days.1 = 0 then ['T', '0', 'S'] else []
    else 'T' :: showTime d.nanos)

/-! ## Digits -/

theorem digitChar_spec {digit : ℕ} (h : digit < 10) :
    (digitChar digit).toNat - 48 = digit ∧ (digitChar digit).isDigit = true ∧
      (digitChar digit).isAlpha = false := by
  interval_cases digit <;> decide

variable {c : Char}

theorem digit_value (h : c.isDigit = true) : ∃ d < 10, c = digitChar d := by
  simp only [Char.isDigit, Bool.and_eq_true, decide_eq_true_eq, ge_iff_le] at h
  have hlow : 48 ≤ c.toNat := UInt32.le_iff_toNat_le.mp h.1
  have hhigh : c.toNat ≤ 57 := UInt32.le_iff_toNat_le.mp h.2
  refine ⟨c.toNat - 48, by omega, ?_⟩
  rw [digitChar, show 48 + (c.toNat - 48) = c.toNat by omega, Char.ofNat_toNat]

/-- Digits are neither letters nor separators nor signs. -/
theorem digit_plain (h : c.isDigit = true) :
    c.isAlpha = false ∧ isSeparator c = false ∧ c ≠ '-' ∧ c ≠ 'T' := by
  obtain ⟨d, hd, rfl⟩ := digit_value h
  interval_cases d <;> decide

theorem readNat_map (digits : List ℕ) (h : ∀ d ∈ digits, d < 10) :
    readNat (digits.reverse.map digitChar) = Nat.ofDigits 10 digits := by
  unfold readNat
  rw [foldl_map, foldl_reverse, Nat.ofDigits_eq_foldr]
  induction digits with
  | nil => rfl
  | cons d digits ih =>
    have hd := (digitChar_spec (h d mem_cons_self)).1
    rw [foldr_cons, foldr_cons, ih fun x hx => h x (mem_cons_of_mem _ hx), hd]
    simp
    ring

theorem readNat_showNat (n : ℕ) : readNat (showNat n) = n := by
  unfold showNat
  split
  · next h =>
    rw [h]
    decide
  · rw [readNat_map _ fun d hd => Nat.digits_lt_base (by decide) hd, Nat.ofDigits_digits]

theorem showNat_digits (n : ℕ) : ∀ c ∈ showNat n, c.isDigit = true := by
  unfold showNat
  split
  · simp
  · intro c hc
    obtain ⟨d, hd, rfl⟩ := mem_map.mp hc
    exact (digitChar_spec (Nat.digits_lt_base (by decide) (mem_reverse.mp hd))).2.1

theorem showNat_ne_nil (n : ℕ) : showNat n ≠ [] := by
  unfold showNat
  split
  · simp
  · next h =>
    simp [Nat.digits_ne_nil_iff_ne_zero.mpr h]

/-- At most `k` digits: the number is below `10ᵏ`. -/
theorem length_showNat (n : ℕ) {k : ℕ} (hk : 1 ≤ k) : (showNat n).length ≤ k ↔ n < 10 ^ k := by
  unfold showNat
  split
  · next h =>
    rw [h]
    simp [hk]
  · rw [length_map, length_reverse, Nat.digits_length_le_iff (by decide)]

/-! ## Decimals -/

variable {number : Text}

theorem span_of_all {p : Char → Bool} {number : Text} (h : ∀ c ∈ number, p c = true) {c : Char}
    (hc : p c = false) (rest : Text) :
    (number ++ c :: rest).takeWhile p = number ∧ (number ++ c :: rest).dropWhile p = c :: rest := by
  rw [takeWhile_append_of_pos h, dropWhile_append_of_pos h]
  simp [hc]

theorem span_all {p : Char → Bool} (h : ∀ c ∈ number, p c = true) :
    number.takeWhile p = number ∧ number.dropWhile p = [] :=
  ⟨takeWhile_eq_self_iff.mpr h, dropWhile_eq_nil_iff.mpr h⟩

theorem showNat_plain (n : ℕ) : (∀ c ∈ showNat n, (!isSeparator c) = true) ∧
    (showNat n).all Char.isDigit = true ∧ (showNat n).isEmpty = false := by
  refine ⟨fun c hc => ?_, all_eq_true.mpr (showNat_digits n), by simp [showNat_ne_nil]⟩
  simp [(digit_plain (showNat_digits n c hc)).2.1]

/-- A whole number is read back, up to eighteen digits. -/
theorem decimalDigits_showNat (n : ℕ) :
    decimalDigits (showNat n) = if n < 10 ^ 18 then .ok ((n : ℤ), 0) else .error .malformed := by
  obtain ⟨hplain, hall, hnil⟩ := showNat_plain n
  have hspan := span_all hplain
  have hlen := length_showNat n (show 1 ≤ 18 by decide)
  unfold decimalDigits
  rw [hspan.1, hspan.2]
  by_cases hn : n < 10 ^ 18
  · have hle : ¬ (showNat n).length > 18 := not_lt.mpr (hlen.mpr hn)
    simp only [hall, hnil, hle, if_pos hn, readNat_showNat]
    rfl
  · have hgt : (showNat n).length > 18 := not_le.mp (mt hlen.mp hn)
    rw [if_neg hn]
    simp [hgt]

theorem showNat_head (n : ℕ) : ∃ c tail, showNat n = c :: tail ∧ c ≠ '-' := by
  obtain ⟨c, tail, h⟩ := exists_cons_of_ne_nil (showNat_ne_nil n)
  exact ⟨c, tail, h, (digit_plain (showNat_digits n c (h ▸ mem_cons_self))).2.2.1⟩

theorem decimal_of_head (h : c ≠ '-') (tail : Text) :
    decimal (c :: tail) = decimalDigits (c :: tail) := by
  unfold decimal
  split
  · next heq =>
    cases heq
    exact absurd rfl h
  · rfl

theorem decimal_showInt (n : ℤ) :
    decimal (showInt n) = if n.natAbs < 10 ^ 18 then .ok (n, 0) else .error .malformed := by
  unfold showInt
  split
  · next hneg =>
    change (decimalDigits (showNat n.natAbs)).map _ = _
    rw [decimalDigits_showNat]
    split
    · have habs : -(n.natAbs : ℤ) = n := by omega
      simp only [Except.map, habs, neg_zero]
    · rfl
  · next hpos =>
    obtain ⟨c, tail, heq, hc⟩ := showNat_head n.natAbs
    rw [heq, decimal_of_head hc, ← heq, decimalDigits_showNat]
    rw [Int.natAbs_of_nonneg (not_lt.mp hpos)]

/-! ## Fractions -/

theorem readNat_zeros (k : ℕ) (l : Text) : readNat (replicate k '0' ++ l) = readNat l := by
  unfold readNat
  induction k with
  | zero => rfl
  | succ k ih =>
    rw [replicate_succ, cons_append, foldl_cons]
    exact ih

/-- A text is what is left without its trailing zeros, and zeros. -/
theorem trailing_zeros (l : Text) :
    ∃ k, l = (l.reverse.dropWhile (· == '0')).reverse ++ replicate k '0' := by
  have hsplit := takeWhile_append_dropWhile (p := (· == '0')) (l := l.reverse)
  have hzeros : ∀ c ∈ l.reverse.takeWhile (· == '0'), c = '0' := by
    intro c hc
    have hbeq := mem_takeWhile_imp (p := (· == '0')) hc
    exact beq_iff_eq.mp hbeq
  refine ⟨(l.reverse.takeWhile (· == '0')).length, ?_⟩
  have hrep := eq_replicate_of_mem hzeros
  have hl := congrArg reverse hsplit
  rw [reverse_append, reverse_reverse] at hl
  rw [← reverse_replicate, ← hrep]
  exact hl.symm

/-- The nine digits of a fraction, and what `Display` keeps of them. -/
theorem showFraction_spec {fraction : ℕ} (hpos : fraction ≠ 0) (hlt : fraction < 10 ^ 9) :
    (∀ c ∈ showFraction fraction, c.isDigit = true) ∧ showFraction fraction ≠ [] ∧
      (showFraction fraction).length ≤ 9 ∧
      readNat ((showFraction fraction ++ replicate 9 '0').take 9) = fraction := by
  obtain ⟨digits, hdigits⟩ : ∃ digits, digits =
    replicate (9 - (showNat fraction).length) '0' ++ showNat fraction := ⟨_, rfl⟩
  have hshow : showFraction fraction = (digits.reverse.dropWhile (· == '0')).reverse := by
    rw [hdigits]
    rfl
  have hlen : digits.length = 9 := by
    have := (length_showNat fraction (show 1 ≤ 9 by decide)).mpr hlt
    rw [hdigits, length_append, length_replicate]
    omega
  have hread : readNat digits = fraction := by
    rw [hdigits, readNat_zeros, readNat_showNat]
  have hall : ∀ c ∈ digits, c.isDigit = true := by
    intro c hc
    rw [hdigits, mem_append] at hc
    obtain hc | hc := hc
    · rw [eq_of_mem_replicate hc]
      rfl
    · exact showNat_digits fraction c hc
  obtain ⟨k, hk⟩ := trailing_zeros digits
  rw [← hshow] at hk
  have hlength : (showFraction fraction).length + k = 9 := by
    have := congrArg length hk
    rw [hlen, length_append, length_replicate] at this
    exact this.symm
  have hpad : (showFraction fraction ++ replicate 9 '0').take 9 = digits := by
    have hsplit : replicate 9 '0' = replicate k '0' ++ replicate (9 - k) '0' := by
      rw [replicate_append_replicate]
      congr 1
      omega
    rw [hsplit, ← append_assoc, ← hk, take_append_of_le_length (by omega),
      take_of_length_le (by omega)]
  refine ⟨fun c hc => hall c ?_, ?_, by omega, by rw [hpad, hread]⟩
  · rw [hk]
    exact mem_append_left _ hc
  · intro hnil
    rw [hnil, nil_append] at hk
    have hzero := readNat_zeros k []
    rw [append_nil, ← hk, hread] at hzero
    exact hpos hzero

theorem decimalDigits_fraction {n fraction : ℕ} (hn : n < 10 ^ 18) (hpos : fraction ≠ 0)
    (hlt : fraction < 10 ^ 9) :
    decimalDigits (showNat n ++ '.' :: showFraction fraction) = .ok ((n : ℤ), (fraction : ℤ)) := by
  obtain ⟨hdigits, hne, hlen, hread⟩ := showFraction_spec hpos hlt
  obtain ⟨hplain, hall, hnil⟩ := showNat_plain n
  have hspan := span_of_all hplain (show (!isSeparator '.') = false from rfl) (showFraction fraction)
  have hwhole : ¬ (showNat n).length > 18 :=
    not_lt.mpr ((length_showNat n (show 1 ≤ 18 by decide)).mpr hn)
  have hall' : (showFraction fraction).all Char.isDigit = true := all_eq_true.mpr hdigits
  have hnil' : (showFraction fraction).isEmpty = false := by simp [hne]
  unfold decimalDigits
  rw [hspan.1, hspan.2]
  simp only [drop_succ_cons, drop_zero, hall, hall', hnil, hnil', hwhole, readNat_showNat,
    hread, not_lt.mpr hlen]
  rfl

/-- The seconds of `Display` are read back with their fraction. -/
theorem decimal_showSeconds {rest : ℤ} (h : rest.natAbs / 1000000000 < 10 ^ 18) :
    decimal (showSeconds rest) = .ok (rest.tdiv nanosPerSecond, rest.tmod nanosPerSecond) := by
  have hdigits : decimalDigits (showNat (rest.natAbs / 1000000000) ++
      (if rest.natAbs % 1000000000 ≠ 0 then '.' :: showFraction (rest.natAbs % 1000000000) else [])) =
      .ok (((rest.natAbs / 1000000000 : ℕ) : ℤ), ((rest.natAbs % 1000000000 : ℕ) : ℤ)) := by
    by_cases hzero : rest.natAbs % 1000000000 = 0
    · rw [if_neg (by simpa using hzero), append_nil, decimalDigits_showNat, if_pos h, hzero]
      rfl
    · rw [if_pos hzero]
      exact decimalDigits_fraction h hzero (by omega)
  unfold showSeconds
  by_cases hneg : rest < 0
  · obtain ⟨n, rfl⟩ : ∃ n : ℕ, rest = -(n : ℤ) := ⟨rest.natAbs, by omega⟩
    rw [Int.natAbs_neg, Int.natAbs_natCast] at hdigits ⊢
    simp only [if_pos hneg, cons_append, nil_append]
    change (decimalDigits _).map _ = _
    rw [hdigits, Int.neg_tdiv, Int.neg_tmod]
    rfl
  · obtain ⟨n, rfl⟩ : ∃ n : ℕ, rest = (n : ℤ) := ⟨rest.natAbs, by omega⟩
    rw [Int.natAbs_natCast] at hdigits ⊢
    simp only [if_neg hneg, nil_append]
    obtain ⟨c, tail, heq, hc⟩ := showNat_head (n / 1000000000)
    rw [heq, cons_append] at hdigits ⊢
    rw [decimal_of_head hc, hdigits]
    rfl

/-! ## One count -/

/-- The designator stands at this place of the table. -/
def Found (table : Table) (designator : Char) (index : ℕ) (unit : DurationUnit) : Prop :=
  designator.isAlpha = true ∧ table[index]? = some (designator, unit) ∧
    ∀ next ≤ index, ((table.drop next).findIdx? fun entry => entry.1 == designator) =
      some (index - next)

variable {table : Table} {designator : Char} {index next : ℕ} {unit : DurationUnit}

theorem parsePart_item (hfound : Found table designator index unit)
    (hnumber : ∀ c ∈ number, c.isAlpha = false) (hnext : next ≤ index) (fuel : ℕ)
    (state : Builder × Bool) (rest : Text) :
    parsePart table (fuel + 1) next state (number ++ designator :: rest) = (do
      let count ← decimal number
      let builder ← state.1.add unit count.1 count.2
      parsePart table fuel (index + 1) (builder, true) rest) := by
  obtain ⟨halpha, hunit, hplace⟩ := hfound
  have hplain : ∀ c ∈ number, (!c.isAlpha) = true := by
    intro c hc
    simp [hnumber c hc]
  have hspan := span_of_all hplain (show (!designator.isAlpha) = false by simp [halpha]) rest
  have hindex : index - next + next = index := by omega
  rw [parsePart, if_neg (by simp)]
  simp only [hspan.1, hspan.2, hplace next hnext, hindex, hunit]

theorem parsePart_nil (table : Table) (fuel next : ℕ) (state : Builder × Bool) :
    parsePart table fuel next state [] = .ok state := by
  cases fuel <;> rfl

theorem showInt_plain (n : ℤ) : ∀ c ∈ showInt n, c.isAlpha = false := by
  intro c hc
  unfold showInt at hc
  split at hc
  · obtain rfl | hc := mem_cons.mp hc
    · rfl
    · exact (digit_plain (showNat_digits _ c hc)).1
  · exact (digit_plain (showNat_digits _ c hc)).1

variable {count : ℤ}

section

variable (hfound : Found table designator index unit) (hnext : next ≤ index) {fuel : ℕ}
  (state : Builder × Bool) {rest : Text}
  (hfuel : (showCount count designator ++ rest).length ≤ fuel)
include hfound hnext hfuel

theorem parsePart_shown (h : count ≠ 0) : ∃ fuel', rest.length ≤ fuel' ∧
    parsePart table fuel next state (showCount count designator ++ rest) = (do
      let count ← decimal (showInt count)
      let builder ← state.1.add unit count.1 count.2
      parsePart table fuel' (index + 1) (builder, true) rest) := by
  have hshow : showCount count designator ++ rest = showInt count ++ designator :: rest := by
    simp [showCount, h]
  rw [hshow] at hfuel ⊢
  simp only [length_append, length_cons] at hfuel
  obtain ⟨fuel, rfl⟩ : ∃ k, fuel = k + 1 := ⟨fuel - 1, by omega⟩
  exact ⟨fuel, by omega, parsePart_item hfound (showInt_plain count) hnext fuel state rest⟩

/-- A count that is shown only when it is not zero. -/
theorem parsePart_count {builder : Builder} (hadd : state.1.add unit count 0 = .ok builder)
    (hzero : count = 0 → builder = state.1) (hcount : count.natAbs < 10 ^ 18) :
    ∃ fuel' next', rest.length ≤ fuel' ∧ next' ≤ index + 1 ∧
      parsePart table fuel next state (showCount count designator ++ rest) =
        parsePart table fuel' next' (builder, state.2 || decide (count ≠ 0)) rest := by
  by_cases h : count = 0
  · refine ⟨fuel, next, ?_, by omega, ?_⟩
    · simpa [showCount, h] using hfuel
    · obtain ⟨b, any⟩ := state
      simp [showCount, h, hzero h]
  · obtain ⟨fuel', hrest, hshown⟩ := parsePart_shown hfound hnext state hfuel h
    refine ⟨fuel', index + 1, hrest, le_refl _, ?_⟩
    rw [hshown, decimal_showInt, if_pos hcount]
    simp [bind, Except.bind, hadd, h]

/-- A count of more than eighteen digits is not read. -/
theorem parsePart_long (hcount : ¬ count.natAbs < 10 ^ 18) :
    parsePart table fuel next state (showCount count designator ++ rest) = .error .malformed := by
  have h : count ≠ 0 := by
    rintro rfl
    exact hcount (by decide)
  obtain ⟨fuel', -, hshown⟩ := parsePart_shown hfound hnext state hfuel h
  rw [hshown, decimal_showInt, if_neg hcount]
  rfl

end

/-! ## The builder -/

theorem i128_of_abs {x : ℤ} (h : |x| ≤ 10 ^ 38) : i128 x = .ok x := by
  rw [abs_le] at h
  refine CanonicalDuration.i128_eq_ok.mpr ⟨?_, rfl⟩
  unfold Fits
  omega

/-- The totals are far from the ends of `i128`. -/
def Builder.Small (b : Builder) : Prop :=
  |b.months| ≤ 10 ^ 20 ∧ |b.days| ≤ 10 ^ 20 ∧ |b.scaledNanos| ≤ 10 ^ 37

namespace Builder

variable {count : ℤ}

theorem scaled_of_abs {fraction perUnit : ℤ} (hcount : |count| ≤ 10 ^ 20)
    (hfraction : |fraction| ≤ 10 ^ 9)
    (hproduct : |(count * scale + fraction) * perUnit| ≤ 10 ^ 38) :
    scaled count fraction perUnit = .ok ((count * scale + fraction) * perUnit) := by
  rw [abs_le] at hcount hfraction
  unfold scaled
  have h₁ : |count * scale| ≤ 10 ^ 38 := by
    unfold scale
    rw [abs_le]
    omega
  have h₂ : |count * scale + fraction| ≤ 10 ^ 38 := by
    unfold scale
    rw [abs_le]
    omega
  simp only [i128_of_abs h₁, i128_of_abs h₂, i128_of_abs hproduct, bind, Except.bind]

variable {b : Builder}

theorem addMonthFraction_zero (h : b.Small) : b.addMonthFraction 0 = .ok b := by
  have h₁ : |b.days| ≤ 10 ^ 38 := le_trans h.2.1 (by norm_num)
  have h₂ : |b.scaledNanos| ≤ 10 ^ 38 := le_trans h.2.2 (by norm_num)
  unfold addMonthFraction
  simp [i128_of_abs h₁, i128_of_abs h₂, bind, Except.bind, pure, Except.pure]

theorem add_years (h : b.Small) (hcount : |count| ≤ 10 ^ 18)
    (htotal : |b.months + count * 12| ≤ 10 ^ 20) :
    b.add .years count 0 = .ok { b with months := b.months + count * 12 } := by
  have hscaled : scaled count 0 12 = .ok ((count * scale + 0) * 12) := by
    rw [abs_le] at hcount
    refine scaled_of_abs ?_ (by decide) ?_
    · rw [abs_le]
      omega
    · unfold scale
      rw [abs_le]
      omega
  have hvalue : (count * scale + 0) * 12 = count * 12 * scale := by ring
  have hdiv : ((count * scale + 0) * 12).tdiv scale = count * 12 := by
    rw [hvalue]
    exact Int.mul_tdiv_cancel _ (by decide)
  have hmod : ((count * scale + 0) * 12).tmod scale = 0 := by
    rw [hvalue]
    exact Int.mul_tmod_left _ _
  have hsmall : ({ b with months := b.months + count * 12 } : Builder).Small := ⟨htotal, h.2⟩
  have hsum : |b.months + count * 12| ≤ 10 ^ 38 := le_trans htotal (by norm_num)
  unfold add
  simp only [hscaled, bind, Except.bind, hdiv, hmod, i128_of_abs hsum]
  exact addMonthFraction_zero hsmall

theorem add_months (h : b.Small) (htotal : |b.months + count| ≤ 10 ^ 20) :
    b.add .months count 0 = .ok { b with months := b.months + count } := by
  have hsmall : ({ b with months := b.months + count } : Builder).Small := ⟨htotal, h.2⟩
  have hsum : |b.months + count| ≤ 10 ^ 38 := le_trans htotal (by norm_num)
  unfold add
  simp only [bind, i128_of_abs hsum]
  exact addMonthFraction_zero hsmall

theorem add_days (h : b.Small) (htotal : |b.days + count| ≤ 10 ^ 20) :
    b.add .days count 0 = .ok { b with days := b.days + count } := by
  have hsum : |b.days + count| ≤ 10 ^ 38 := le_trans htotal (by norm_num)
  have hnanos : |b.scaledNanos| ≤ 10 ^ 38 := le_trans h.2.2 (by norm_num)
  unfold add
  simp [bind, Except.bind, i128_of_abs hsum, i128_of_abs hnanos, pure, Except.pure]

theorem addTime_of_abs {fraction perUnit : ℤ} (hcount : |count| ≤ 10 ^ 20)
    (hfraction : |fraction| ≤ 10 ^ 9) (hproduct : |(count * scale + fraction) * perUnit| ≤ 10 ^ 38)
    (htotal : |b.scaledNanos + (count * scale + fraction) * perUnit| ≤ 10 ^ 38) :
    b.addTime count fraction perUnit =
      .ok { b with scaledNanos := b.scaledNanos + (count * scale + fraction) * perUnit } := by
  unfold addTime
  simp only [scaled_of_abs hcount hfraction hproduct, i128_of_abs htotal, bind, Except.bind,
    pure, Except.pure]

/-- A total of whole nanoseconds is finished as it is. -/
theorem finish_exact {d : CanonicalDuration} (hmonths : b.months = d.months.1)
    (hdays : b.days = d.days.1) (hnanos : b.scaledNanos = d.nanos * scale) : b.finish = .ok d := by
  have hround : roundedDiv b.scaledNanos scale = d.nanos := by
    unfold roundedDiv
    rw [hnanos, Int.mul_tmod_left, Int.mul_tdiv_cancel _ (by decide), if_neg (by decide)]
  unfold finish
  rw [hmonths, hdays, hround, CanonicalDuration.i64_eq_ok.mpr rfl, CanonicalDuration.i64_eq_ok.mpr rfl]
  exact CanonicalDuration.new_eq_ok.mpr ⟨rfl, rfl, rfl⟩

end Builder

/-! ## The two parts -/

theorem found_years : Found dateTable 'Y' 0 .years := ⟨rfl, rfl, by decide⟩

theorem found_months : Found dateTable 'M' 1 .months := ⟨rfl, rfl, by decide⟩

theorem found_days : Found dateTable 'D' 3 .days := ⟨rfl, rfl, by decide⟩

theorem found_hours : Found timeTable 'H' 0 .hours := ⟨rfl, rfl, by decide⟩

theorem found_minutes : Found timeTable 'M' 1 .minutes := ⟨rfl, rfl, by decide⟩

theorem found_seconds : Found timeTable 'S' 2 .seconds := ⟨rfl, rfl, by decide⟩

/-- The date part of a text. -/
def showDate (d : CanonicalDuration) : Text :=
  showCount (d.months.1.tdiv 12) 'Y' ++ showCount (d.months.1.tmod 12) 'M' ++ showCount d.days.1 'D'

/-- The date part is read back, unless the days have more than eighteen digits. -/
theorem parsePart_date (d : CanonicalDuration) :
    parsePart dateTable (showDate d).length 0 (.default, false) (showDate d) =
      if d.days.1.natAbs < 10 ^ 18 then
        .ok (⟨d.months.1, d.days.1, 0⟩, decide (d.months.1 ≠ 0 ∨ d.days.1 ≠ 0))
      else .error .malformed := by
  have hm := d.months.2
  have hd := d.days.2
  unfold Fits at hm hd
  have hparts := Int.mul_tdiv_add_tmod d.months.1 12
  have hrem := abs_lt.mp (abs_tmod_lt d.months.1 (show (0 : ℤ) < 12 by decide))
  have hzero : d.months.1 ≠ 0 ↔ d.months.1.tdiv 12 ≠ 0 ∨ d.months.1.tmod 12 ≠ 0 := by
    constructor
    · intro h
      by_contra hboth
      rw [not_or, not_not, not_not] at hboth
      rw [hboth.1, hboth.2] at hparts
      exact h hparts.symm
    · rintro h heq
      rw [heq] at h
      simp at h
  unfold showDate
  generalize d.months.1.tdiv 12 = years at *
  generalize d.months.1.tmod 12 = months at *
  have hdefault : Builder.default.Small := ⟨by decide, by decide, by decide⟩
  have hfew : |years| ≤ 10 ^ 18 ∧ |0 + years * 12| ≤ 10 ^ 20 ∧ |0 + years * 12 + months| ≤ 10 ^ 20 := by
    rw [abs_le, abs_le, abs_le]
    omega
  have hyears : Builder.default.add .years years 0 = .ok ⟨0 + years * 12, 0, 0⟩ :=
    Builder.add_years hdefault hfew.1 hfew.2.1
  have hsmall : (⟨0 + years * 12, 0, 0⟩ : Builder).Small := ⟨hfew.2.1, by simp, by simp⟩
  have hmonths : (⟨0 + years * 12, 0, 0⟩ : Builder).add .months months 0 =
      .ok ⟨0 + years * 12 + months, 0, 0⟩ := Builder.add_months hsmall hfew.2.2
  have hsmall' : (⟨0 + years * 12 + months, 0, 0⟩ : Builder).Small :=
    ⟨hfew.2.2, by simp, by simp⟩
  rw [append_assoc]
  obtain ⟨f₁, n₁, hf₁, hn₁, hstep₁⟩ := parsePart_count found_years (Nat.le_refl 0)
    (Builder.default, false) (le_refl _) hyears (by rintro rfl; rfl) (by omega)
  rw [hstep₁]
  obtain ⟨f₂, n₂, hf₂, hn₂, hstep₂⟩ := parsePart_count found_months hn₁
    (⟨0 + years * 12, 0, 0⟩, _) hf₁ hmonths (by rintro rfl; simp) (by omega)
  rw [hstep₂]
  rw [← append_nil (showCount d.days.1 'D')] at hf₂ ⊢
  by_cases hdays : d.days.1.natAbs < 10 ^ 18
  · have hadd : (⟨0 + years * 12 + months, 0, 0⟩ : Builder).add .days d.days.1 0 =
        .ok ⟨0 + years * 12 + months, 0 + d.days.1, 0⟩ := by
      refine Builder.add_days hsmall' ?_
      change |0 + d.days.1| ≤ _
      rw [abs_le]
      omega
    obtain ⟨f₃, n₃, hf₃, hn₃, hstep₃⟩ := parsePart_count found_days
      (show n₂ ≤ 3 by omega) (⟨0 + years * 12 + months, 0, 0⟩, _) hf₂ hadd (by intro h; simp [h]) hdays
    rw [hstep₃, parsePart_nil, if_pos hdays]
    have hsum : 0 + years * 12 + months = d.months.1 := by omega
    rw [hsum, zero_add]
    congr 2
    simp [hzero]
  · rw [parsePart_long found_days (show n₂ ≤ 3 by omega) _ hf₂ hdays, if_neg hdays]

/-- The parts of a time, from hours to what is left for the seconds. -/
theorem time_split (nanos : ℤ) : ∃ hours minutes rest : ℤ,
    nanos.tdiv (3600 * nanosPerSecond) = hours ∧
    (nanos.tmod (3600 * nanosPerSecond)).tdiv (60 * nanosPerSecond) = minutes ∧
    (nanos.tmod (3600 * nanosPerSecond)).tmod (60 * nanosPerSecond) = rest ∧
    nanos = 3600000000000 * hours + 60000000000 * minutes + rest ∧ |rest| < 60000000000 ∧
    |60000000000 * minutes + rest| < 3600000000000 ∧ (nanos = 0 ↔ hours = 0 ∧ minutes = 0 ∧ rest = 0) := by
  have hhour : 3600 * nanosPerSecond = 3600000000000 := rfl
  have hminute : 60 * nanosPerSecond = 60000000000 := rfl
  rw [hhour, hminute]
  have h₁ := Int.mul_tdiv_add_tmod nanos 3600000000000
  have h₂ := Int.mul_tdiv_add_tmod (nanos.tmod 3600000000000) 60000000000
  have h₃ := abs_tmod_lt nanos (show (0 : ℤ) < 3600000000000 by decide)
  have h₄ := abs_tmod_lt (nanos.tmod 3600000000000) (show (0 : ℤ) < 60000000000 by decide)
  refine ⟨_, _, _, rfl, rfl, rfl, by omega, h₄, by rw [h₂]; exact h₃, ?_⟩
  constructor
  · rintro rfl
    simp
  · rintro ⟨ha, hb, hc⟩
    rw [hb, hc] at h₂
    rw [ha, ← h₂] at h₁
    omega

theorem showSeconds_plain (rest : ℤ) : ∀ c ∈ showSeconds rest, c.isAlpha = false := by
  intro c hc
  unfold showSeconds at hc
  simp only [mem_append] at hc
  obtain (hc | hc) | hc := hc
  · split at hc
    · rw [mem_singleton.mp hc]
      rfl
    · cases hc
  · exact (digit_plain (showNat_digits _ c hc)).1
  · split at hc
    · next hfraction =>
      obtain rfl | hc := mem_cons.mp hc
      · rfl
      · exact (digit_plain ((showFraction_spec hfraction (by omega)).1 c hc)).1
    · cases hc

/-- The time part is read back exactly. -/
theorem parsePart_time {nanos : ℤ} (hbound : -maxTimeNanos ≤ nanos ∧ nanos ≤ maxTimeNanos)
    (hne : nanos ≠ 0) (months days : ℤ) (any : Bool) :
    parsePart timeTable (showTime nanos).length 0 (⟨months, days, 0⟩, any) (showTime nanos) =
      .ok (⟨months, days, nanos * scale⟩, true) := by
  obtain ⟨hours, minutes, rest, hh, hm, hr, hsum, hrest, hminutes, hzero⟩ := time_split nanos
  have hmax : maxTimeNanos = 9223372036854775807999999999 := by decide
  rw [hmax] at hbound
  rw [abs_lt] at hrest hminutes
  unfold showTime
  simp only [hh, hm, hr]
  have hhours : (⟨months, days, 0⟩ : Builder).add .hours hours 0 =
      .ok ⟨months, days, 0 + (hours * scale + 0) * (3600 * nanosPerSecond)⟩ := by
    refine Builder.addTime_of_abs ?_ (by simp) ?_ ?_
    · rw [abs_le]
      omega
    · rw [abs_le, scale, nanosPerSecond]
      omega
    · dsimp only [scale, nanosPerSecond]
      rw [abs_le]
      omega
  obtain ⟨a, ha⟩ : ∃ a, a = 0 + (hours * scale + 0) * (3600 * nanosPerSecond) := ⟨_, rfl⟩
  rw [← ha] at hhours
  simp only [scale, nanosPerSecond] at ha
  have hminutes' : (⟨months, days, a⟩ : Builder).add .minutes minutes 0 =
      .ok ⟨months, days, a + (minutes * scale + 0) * (60 * nanosPerSecond)⟩ := by
    refine Builder.addTime_of_abs ?_ (by simp) ?_ ?_
    · rw [abs_le]
      omega
    · rw [abs_le, scale, nanosPerSecond]
      omega
    · dsimp only [scale, nanosPerSecond]
      rw [abs_le]
      omega
  obtain ⟨b, hb⟩ : ∃ b, b = a + (minutes * scale + 0) * (60 * nanosPerSecond) := ⟨_, rfl⟩
  rw [← hb] at hminutes'
  simp only [scale, nanosPerSecond] at hb
  rw [List.append_assoc]
  obtain ⟨f₁, n₁, hf₁, hn₁, hstep₁⟩ := parsePart_count found_hours (Nat.le_refl 0)
    (⟨months, days, 0⟩, any) (le_refl _) hhours
    (by rintro rfl; rw [ha]; simp) (by omega)
  rw [hstep₁]
  obtain ⟨f₂, n₂, hf₂, hn₂, hstep₂⟩ := parsePart_count found_minutes hn₁ (⟨months, days, a⟩, _) hf₁
    hminutes' (by rintro rfl; rw [hb]; simp) (by omega)
  rw [hstep₂]
  by_cases hseconds : rest = 0
  · rw [if_neg (by simpa using hseconds), parsePart_nil]
    have hany : (any || decide (hours ≠ 0) || decide (minutes ≠ 0)) = true := by
      by_contra hnot
      simp only [Bool.not_eq_true, Bool.or_eq_false_iff, decide_eq_false_iff_not, not_not] at hnot
      exact hne (hzero.mpr ⟨hnot.1.2, hnot.2, hseconds⟩)
    have htotal : b = nanos * scale := by
      unfold scale
      omega
    rw [hany, htotal]
  · rw [if_pos hseconds] at hf₂ ⊢
    have hfuel : 1 ≤ f₂ := by
      simp only [List.length_append, List.length_singleton] at hf₂
      omega
    obtain ⟨f₂, rfl⟩ : ∃ k, f₂ = k + 1 := ⟨f₂ - 1, by omega⟩
    have hdiv := Int.mul_tdiv_add_tmod rest nanosPerSecond
    have hmod := abs_lt.mp (abs_tmod_lt rest (show 0 < nanosPerSecond by decide))
    rw [parsePart_item found_seconds (showSeconds_plain rest) (show n₂ ≤ 2 by omega),
      decimal_showSeconds (by omega)]
    simp only [bind, Except.bind]
    have hlast : (⟨months, days, b⟩ : Builder).add .seconds (rest.tdiv nanosPerSecond)
        (rest.tmod nanosPerSecond) = .ok ⟨months, days, b + (rest.tdiv nanosPerSecond * scale +
          rest.tmod nanosPerSecond) * nanosPerSecond⟩ := by
      simp only [nanosPerSecond] at hdiv hmod
      refine Builder.addTime_of_abs ?_ ?_ ?_ ?_ <;> simp only [scale, nanosPerSecond] <;>
        rw [abs_le] <;> omega
    have htotal : b + (rest.tdiv nanosPerSecond * scale + rest.tmod nanosPerSecond) * nanosPerSecond =
        nanos * scale := by
      simp only [nanosPerSecond, scale] at hdiv ⊢
      omega
    rw [hlast, htotal]
    exact parsePart_nil _ _ _ _

theorem showCount_eq_nil {count : ℤ} {designator : Char} (h : showCount count designator = []) :
    count = 0 := by
  by_contra hne
  simp [showCount, hne] at h

theorem showTime_ne_nil {nanos : ℤ} (h : nanos ≠ 0) : showTime nanos ≠ [] := by
  obtain ⟨hours, minutes, rest, hh, hm, hr, -, -, -, hzero⟩ := time_split nanos
  unfold showTime
  simp only [hh, hm, hr]
  intro hnil
  simp only [append_eq_nil_iff] at hnil
  refine h (hzero.mpr ⟨showCount_eq_nil hnil.1.1, showCount_eq_nil hnil.1.2, ?_⟩)
  by_contra hne
  simp [hne] at hnil

/-! ## The whole text -/

theorem showInt_chars (n : ℤ) : ∀ c ∈ showInt n, c.isDigit = true ∨ c = '-' := by
  intro c hc
  unfold showInt at hc
  split at hc
  · obtain rfl | hc := mem_cons.mp hc
    · exact Or.inr rfl
    · exact Or.inl (showNat_digits _ c hc)
  · exact Or.inl (showNat_digits _ c hc)

theorem showDate_no_T (d : CanonicalDuration) : ∀ c ∈ showDate d, (c != 'T') = true := by
  have hcount : ∀ (count : ℤ) (designator : Char), (designator != 'T') = true →
      ∀ c ∈ showCount count designator, (c != 'T') = true := by
    intro count designator hdesignator c hc
    unfold showCount at hc
    split at hc
    · obtain hc | hc := mem_append.mp hc
      · obtain hdigit | rfl := showInt_chars count c hc
        · simp [(digit_plain hdigit).2.2.2]
        · rfl
      · rw [mem_singleton.mp hc]
        exact hdesignator
    · cases hc
  intro c hc
  unfold showDate at hc
  simp only [mem_append] at hc
  obtain (hc | hc) | hc := hc
  · exact hcount _ 'Y' rfl c hc
  · exact hcount _ 'M' rfl c hc
  · exact hcount _ 'D' rfl c hc

theorem showDate_ne_nil {d : CanonicalDuration} (h : d.months.1 ≠ 0 ∨ d.days.1 ≠ 0) :
    showDate d ≠ [] := by
  intro hnil
  simp only [showDate, append_eq_nil_iff] at hnil
  obtain ⟨⟨hyears, hmonths⟩, hdays⟩ := hnil
  have hparts := Int.mul_tdiv_add_tmod d.months.1 12
  rw [showCount_eq_nil hyears, showCount_eq_nil hmonths] at hparts
  have hzero := showCount_eq_nil hdays
  omega

/-- A text that begins with a shown number and a letter is not of the alternative form. -/
theorem parseBody_designators {number : Text}
    (hnumber : (∀ c ∈ number, c.isDigit = true) ∨ ∃ tail, number = '-' :: tail) {c : Char}
    (hc : c.isAlpha = true) (rest : Text) :
    parseBody (number ++ c :: rest) = parseDesignators (number ++ c :: rest) := by
  have hletter : c.isDigit = false := by
    rw [Bool.eq_false_iff]
    intro hdigit
    rw [(digit_plain hdigit).1] at hc
    cases hc
  unfold parseBody
  rw [if_neg]
  rintro ⟨-, hdigits, hdash⟩
  rw [all_eq_true] at hdigits
  obtain hnumber | ⟨tail, rfl⟩ := hnumber
  · obtain hshort | hlong := Nat.lt_or_ge number.length 4
    · have hmem : c ∈ (number ++ c :: rest).take 4 := by
        rw [take_append, mem_append]
        right
        obtain ⟨k, hk⟩ : ∃ k, 4 - number.length = k + 1 := ⟨3 - number.length, by omega⟩
        rw [hk, take_succ_cons]
        exact mem_cons_self
      rw [hdigits c hmem] at hletter
      cases hletter
    · obtain heq | hlt := Nat.eq_or_lt_of_le hlong
      · rw [getElem?_append_right (by omega), ← heq, Nat.sub_self, getElem?_cons_zero,
          Option.some.injEq] at hdash
        rw [hdash] at hc
        cases hc
      · rw [getElem?_append_left hlt] at hdash
        exact (digit_plain (hnumber '-' (mem_of_getElem? hdash))).2.2.1 rfl
  · have := hdigits '-' (by simp)
    cases this

theorem showInt_form (n : ℤ) :
    (∀ c ∈ showInt n, c.isDigit = true) ∨ ∃ tail, showInt n = '-' :: tail := by
  unfold showInt
  split
  · exact Or.inr ⟨_, rfl⟩
  · exact Or.inl (showNat_digits _)

/-- A nonzero count at the head of a text. -/
theorem parseBody_count (h : count ≠ 0) (hdesignator : designator.isAlpha = true) (rest : Text) :
    parseBody (showCount count designator ++ rest) =
      parseDesignators (showCount count designator ++ rest) := by
  have hshow : showCount count designator ++ rest = showInt count ++ designator :: rest := by
    simp [showCount, h]
  rw [hshow]
  exact parseBody_designators (showInt_form count) hdesignator rest

/-- The texts of `Display` are read by their designators. -/
theorem parseBody_display (d : CanonicalDuration) (time : Text)
    (h : showDate d ≠ [] ∨ time ≠ []) (htime : time = [] ∨ ∃ rest, time = 'T' :: rest) :
    parseBody (showDate d ++ time) = parseDesignators (showDate d ++ time) := by
  by_cases hyears : d.months.1.tdiv 12 = 0
  · by_cases hmonths : d.months.1.tmod 12 = 0
    · by_cases hdays : d.days.1 = 0
      · have hnil : showDate d = [] := by simp [showDate, showCount, hyears, hmonths, hdays]
        rw [hnil] at h ⊢
        obtain rfl | ⟨rest, rfl⟩ := htime
        · simp at h
        · exact @parseBody_designators [] (Or.inl (by simp)) 'T' rfl rest
      · have hdate : showDate d = showCount d.days.1 'D' := by
          simp [showDate, showCount, hyears, hmonths]
        rw [hdate]
        exact parseBody_count hdays rfl time
    · have hdate : showDate d = showCount (d.months.1.tmod 12) 'M' ++ showCount d.days.1 'D' := by
        simp [showDate, showCount, hyears]
      rw [hdate, append_assoc]
      exact parseBody_count hmonths rfl _
  · rw [showDate, append_assoc, append_assoc]
    exact parseBody_count hyears rfl _

theorem duration_ext {d d' : CanonicalDuration} (hmonths : d.months.1 = d'.months.1)
    (hdays : d.days.1 = d'.days.1) (hnanos : d.nanos = d'.nanos) : d = d' := by
  obtain ⟨⟨m, hm⟩, ⟨s, hs⟩, n, hn⟩ := d
  obtain ⟨⟨m', hm'⟩, ⟨s', hs'⟩, n', hn'⟩ := d'
  simp only at hmonths hdays hnanos
  subst hmonths hdays hnanos
  rfl

/-- The text of a duration is read back, unless its days have more than eighteen digits. -/
theorem parseIso_eq (d : CanonicalDuration) :
    parseIso (display d) = if d.days.1.natAbs < 10 ^ 18 then .ok d else .error .malformed := by
  have hbody : display d = 'P' :: (showDate d ++
      if d.nanos = 0 then if d.months.1 = 0 ∧ d.days.1 = 0 then ['T', '0', 'S'] else []
      else 'T' :: showTime d.nanos) := rfl
  rw [hbody]
  change parseBody _ = _
  by_cases hnanos : d.nanos = 0
  · rw [if_pos hnanos]
    by_cases hzero : d.months.1 = 0 ∧ d.days.1 = 0
    · have hdate : showDate d = [] := by simp [showDate, showCount, hzero.1, hzero.2]
      rw [if_pos hzero, hdate, if_pos (by rw [hzero.2]; decide)]
      have hnone : parseBody ([] ++ ['T', '0', 'S']) =
          .ok ⟨⟨0, by decide⟩, ⟨0, by decide⟩, 0, by decide⟩ := by decide +kernel
      rw [hnone]
      exact congrArg _ (duration_ext hzero.1.symm hzero.2.symm hnanos.symm)
    · rw [if_neg hzero, List.append_nil]
      have hspan := span_all (showDate_no_T d)
      have hany : d.months.1 ≠ 0 ∨ d.days.1 ≠ 0 := by
        rw [← not_and_or]
        exact hzero
      have hdesignators := parseBody_display d [] (Or.inl (showDate_ne_nil hany)) (Or.inl rfl)
      rw [List.append_nil] at hdesignators
      rw [hdesignators]
      unfold parseDesignators
      simp only [hspan.1, hspan.2, parsePart_date]
      by_cases hdays : d.days.1.natAbs < 10 ^ 18
      · simp only [if_pos hdays, bind, Except.bind, decide_eq_true hany, if_true]
        exact Builder.finish_exact rfl rfl (by rw [hnanos, zero_mul])
      · simp only [if_neg hdays]
        rfl
  · rw [if_neg hnanos]
    have hspan := span_of_all (showDate_no_T d) (show ('T' != 'T') = false from rfl)
      (showTime d.nanos)
    rw [parseBody_display d _ (Or.inr (by simp)) (Or.inr ⟨_, rfl⟩)]
    unfold parseDesignators
    have hempty : (showTime d.nanos).isEmpty = false := by simp [showTime_ne_nil hnanos]
    simp only [hspan.1, hspan.2, hempty, parsePart_date]
    by_cases hdays : d.days.1.natAbs < 10 ^ 18
    · simp only [if_pos hdays, bind, Except.bind, Bool.false_eq_true, if_false]
      rw [parsePart_time d.bounded hnanos]
      exact Builder.finish_exact rfl rfl rfl
    · simp only [if_neg hdays, bind, Except.bind, Bool.false_eq_true, if_false]

/-- The text of a duration is read back exactly when its days have eighteen digits at most. -/
theorem duration_text_iff (d : CanonicalDuration) :
    parseIso (display d) = .ok d ↔ d.days.1.natAbs < 10 ^ 18 := by
  rw [parseIso_eq]
  by_cases h : d.days.1.natAbs < 10 ^ 18
  · rw [if_pos h]
    exact ⟨fun _ => h, fun _ => rfl⟩
  · rw [if_neg h]
    exact ⟨(fun h' => nomatch h'), fun h' => absurd h' h⟩

/-- `P1000000000000000000D` is not read back. -/
theorem duration_text_lost :
    let d : CanonicalDuration := ⟨⟨0, by decide⟩, ⟨10 ^ 18, by decide⟩, 0, by decide⟩
    parseIso (display d) = .error .malformed := by
  intro d
  rw [parseIso_eq, if_neg (by decide)]

end FrankenGraph.Temporal

import FrankenGraph.Temporal.CalendarForms
import FrankenGraph.Temporal.DurationText

/-!
# Dates and their texts

`crates/fgdb-types/src/temporal/date.rs` (L14-252). A text is its list of bytes, each
written as the character with that code; the parsers compare bytes with ASCII characters only.

`Spells` is the grammar of the accepted texts: a year, plain with four digits or signed with four to
nine, then the fields of one form. A hyphen after the year marks the extended spellings, and a
signed year takes no other.

Results:

* `splitYear_iff`, `parseFields_iff`: the two halves of the parser, against the grammar.
* `parseDate_iff`: a text is read as a date exactly when it spells a form whose fields are the
  fields of that date.
* `spells_unique`: a text spells at most one form.
* `parseDate_display`: the text of a date is read back.
-/

namespace FrankenGraph.Temporal

open Calendar List Option

/-- `CanonicalDate` (L14-16): a day in the supported range. -/
@[ext]
structure CanonicalDate where
  epochDay : ℤ
  valid : inRange epochDay = true

/-- `enum DateError` (L20-27). -/
inductive DateError
  | outOfRange
  | noSuchDay
  | malformed
  deriving DecidableEq, Repr

namespace CanonicalDate

/-- `within` (L100-106). -/
def within (year : ℤ) : (epochDay : Option ℤ) → (∀ day, epochDay = some day → inRange day = true) →
    Except DateError CanonicalDate
  | some day, h => .ok ⟨day, h day rfl⟩
  | none, _ => if yearInRange year then .error .noSuchDay else .error .outOfRange

variable {year : ℤ}

theorem fromCivil_inRange {month day : ℕ} (date : ℤ)
    (h : Calendar.fromCivil year month day = some date) : inRange date = true :=
  (toCivil_eq_some.mp (fromCivil_iff.mp h)).1

theorem fromOrdinal_inRange {ordinal : ℕ} (date : ℤ)
    (h : Calendar.fromOrdinal year ordinal = some date) : inRange date = true :=
  (toOrdinal_eq_some.mp (fromOrdinal_iff.mp h)).1

theorem fromIsoWeek_inRange {week weekday : ℕ} (date : ℤ)
    (h : Calendar.fromIsoWeek year week weekday = some date) : inRange date = true := by
  have hweek := fromIsoWeek_iff.mp h
  unfold toIsoWeek toCivil at hweek
  by_contra hout
  rw [if_neg hout] at hweek
  cases hweek

/-- `from_civil` (L61-63). -/
def fromCivil (year : ℤ) (month day : ℕ) : Except DateError CanonicalDate :=
  within year (Calendar.fromCivil year month day) fromCivil_inRange

/-- `from_iso_week` (L72-80). -/
def fromIsoWeek (weekYear : ℤ) (week weekday : ℕ) : Except DateError CanonicalDate :=
  match isoWeekCount weekYear with
  | none => .error .outOfRange
  | some weeks =>
    if ¬ (1 ≤ week ∧ week ≤ weeks) ∨ ¬ (1 ≤ weekday ∧ weekday ≤ 7) then .error .noSuchDay
    else
      match h : Calendar.fromIsoWeek weekYear week weekday with
      | some day => .ok ⟨day, fromIsoWeek_inRange day h⟩
      | none => .error .outOfRange

/-- `from_ordinal` (L87-89). -/
def fromOrdinal (year : ℤ) (ordinal : ℕ) : Except DateError CanonicalDate :=
  within year (Calendar.fromOrdinal year ordinal) fromOrdinal_inRange

theorem toCivil_isSome_of_valid (self : CanonicalDate) : (toCivil self.epochDay).isSome = true := by
  obtain ⟨y, m, d, h⟩ := toCivil_isSome self.valid
  rw [h]
  rfl

/-- `civil` (L116-118). -/
def civil (self : CanonicalDate) : ℤ × ℕ × ℕ :=
  (toCivil self.epochDay).get self.toCivil_isSome_of_valid

theorem toCivil_epochDay (self : CanonicalDate) : toCivil self.epochDay = some self.civil :=
  (some_get _).symm

theorem within_eq_ok {epochDay : Option ℤ} {h} {date : CanonicalDate} :
    within year epochDay h = .ok date ↔ epochDay = some date.epochDay := by
  cases epochDay with
  | none =>
    simp only [within]
    split <;> simp
  | some day =>
    simp only [within, Except.ok.injEq, some.injEq, CanonicalDate.ext_iff]

/-- The checks before the conversion refuse only what the conversion refuses. -/
theorem fromIsoWeek_eq_ok {weekYear : ℤ} {week weekday : ℕ} {date : CanonicalDate} :
    fromIsoWeek weekYear week weekday = .ok date ↔
      Calendar.fromIsoWeek weekYear week weekday = some date.epochDay := by
  unfold fromIsoWeek isoWeekCount
  by_cases hyear : minYear - 1 ≤ weekYear ∧ weekYear ≤ maxYear + 1
  · rw [if_pos hyear]
    dsimp only
    split
    · next hfields =>
      have hnone : Calendar.fromIsoWeek weekYear week weekday = none := if_pos (Or.inr hfields)
      simp [hnone]
    · split
      · next day hday => simp [hday, CanonicalDate.ext_iff]
      · next hday => simp [hday]
  · have hnone : Calendar.fromIsoWeek weekYear week weekday = none := if_pos (Or.inl hyear)
    rw [if_neg hyear]
    dsimp only
    rw [hnone]
    simp

end CanonicalDate

/-! ## Numbers -/

/-- `number` (L227-235): an unsigned decimal of one to nine digits. -/
def number (bytes : Text) : Option ℤ :=
  if bytes.isEmpty || bytes.length > 9 then none
  else bytes.foldlM (fun value byte =>
    if byte.isDigit then some (value * 10 + ((byte.toNat - 48 : ℕ) : ℤ)) else none) 0

/-- The bytes are digits. -/
def Digits (bytes : Text) : Prop := ∀ c ∈ bytes, c.isDigit = true

theorem foldlM_digits (bytes : Text) (start : ℕ) : bytes.foldlM (fun (value : ℤ) byte =>
    if byte.isDigit then some (value * 10 + ((byte.toNat - 48 : ℕ) : ℤ)) else none) (start : ℤ) =
      if bytes.all Char.isDigit then
        some ((bytes.foldl (fun value digit => value * 10 + (digit.toNat - 48)) start : ℕ) : ℤ)
      else none := by
  induction bytes generalizing start with
  | nil => rfl
  | cons c bytes ih =>
    rw [foldlM_cons, all_cons, foldl_cons]
    cases hc : c.isDigit with
    | false => rfl
    | true =>
      have hstep := ih (start * 10 + (c.toNat - 48))
      push_cast at hstep
      simpa using hstep

variable {bytes : Text}

theorem number_eq_some {n : ℤ} : number bytes = some n ↔
    bytes ≠ [] ∧ bytes.length ≤ 9 ∧ Digits bytes ∧ (readNat bytes : ℤ) = n := by
  have hfold := foldlM_digits bytes 0
  unfold number Digits readNat
  rw [Nat.cast_zero] at hfold
  rw [hfold]
  by_cases hempty : bytes = []
  · simp [hempty]
  · by_cases hlen : bytes.length ≤ 9
    · have hlen' : ¬ 9 < bytes.length := by omega
      simp [hempty, hlen, hlen']
    · have hlen' : 9 < bytes.length := by omega
      simp [hlen, hlen']

theorem readNat_lt (h : Digits bytes) : readNat bytes < 10 ^ bytes.length := by
  induction bytes using reverseRecOn with
  | nil => simp [readNat]
  | append_singleton bytes c ih =>
    have hlow := ih fun x hx => h x (mem_append_left _ hx)
    obtain ⟨d, hd, rfl⟩ := digit_value (h c (by simp))
    have hvalue := (digitChar_spec hd).1
    unfold readNat at hlow ⊢
    rw [foldl_append, length_append, foldl_cons, foldl_nil, hvalue, length_singleton, pow_succ]
    omega

/-! ## Parsing -/

/-- The sign of a year and what follows it. -/
def splitSign (bytes : Text) : Option ℤ × Text :=
  if bytes.head? = some '+' then (some 1, bytes.tail)
  else if bytes.head? = some '-' then (some (-1), bytes.tail)
  else (none, bytes)

/-- The year of `parse_iso` (L179-198), whether a hyphen follows it, and the bytes of the
fields. -/
def splitYear (bytes : Text) : Option (ℤ × Bool × Text) :=
  let sign := (splitSign bytes).1
  let body := (splitSign bytes).2
  let yearDigits := if sign = none then 4 else (body.takeWhile Char.isDigit).length
  if ¬ (4 ≤ yearDigits ∧ yearDigits ≤ 9) ∨ body.length < yearDigits then none
  else
    match number (body.take yearDigits) with
    | none => none
    | some magnitude =>
      let rest := body.drop yearDigits
      let extended := rest.head? == some '-'
      if sign ≠ none ∧ rest ≠ [] ∧ extended = false then none
      else some (magnitude * sign.getD 1, extended, if extended then rest.tail else rest)

/-- The week and the weekday of `parse_iso` (L200-206); a missing weekday is Monday. -/
def weekFields : Bool → Text → Option (Text × ℤ)
  | _, [w₁, w₂] => some ([w₁, w₂], 1)
  | true, [w₁, w₂, hyphen, day] =>
    if hyphen = '-' then (number [day]).map fun day => ([w₁, w₂], day) else none
  | false, [w₁, w₂, day] => (number [day]).map fun day => ([w₁, w₂], day)
  | _, _ => none

/-- The week form of `parse_iso` (L199-209). -/
def parseWeek (year : ℤ) (extended : Bool) (week : Text) : Except DateError CanonicalDate :=
  match weekFields extended week with
  | none => .error .malformed
  | some (week, weekday) =>
    match number week with
    | some week => CanonicalDate.fromIsoWeek year (asU8 week) (asU8 weekday)
    | none => .error .malformed

/-- The calendar date of a month and a day. -/
def parseCivil (year : ℤ) (month day : Text) : Except DateError CanonicalDate :=
  match number month, number day with
  | some month, some day => CanonicalDate.fromCivil year (asU8 month) (asU8 day)
  | _, _ => .error .malformed

/-- The calendar date of a month. -/
def parseMonth (year : ℤ) (month : Text) : Except DateError CanonicalDate :=
  match number month with
  | some month => CanonicalDate.fromCivil year (asU8 month) 1
  | none => .error .malformed

/-- The date of a day of the year. -/
def parseOrdinal (year : ℤ) (ordinal : Text) : Except DateError CanonicalDate :=
  match number ordinal with
  | some ordinal => CanonicalDate.fromOrdinal year (asU16 ordinal)
  | none => .error .malformed

/-- The other forms of `parse_iso` (L210-222), by the count of the bytes. -/
def parseOther (year : ℤ) (extended : Bool) (rest : Text) : Except DateError CanonicalDate :=
  match extended, rest.length with
  | false, 0 => CanonicalDate.fromCivil year 1 1
  | _, 2 => parseMonth year rest
  | _, 3 => parseOrdinal year rest
  | false, 4 => parseCivil year (rest.take 2) (rest.drop 2)
  | true, 5 =>
    if rest[2]? = some '-' then parseCivil year (rest.take 2) (rest.drop 3) else .error .malformed
  | _, _ => .error .malformed

/-- The fields of `parse_iso` (L199-222). -/
def parseFields (year : ℤ) (extended : Bool) (rest : Text) : Except DateError CanonicalDate :=
  if rest.head? = some 'W' then parseWeek year extended rest.tail else parseOther year extended rest

/-- `CanonicalDate::parse_iso` (L177-223). -/
def parseDate (text : Text) : Except DateError CanonicalDate :=
  match splitYear text with
  | none => .error .malformed
  | some (year, extended, rest) => parseFields year extended rest

/-! ## The grammar -/

/-- The forms of a date, with the fields they spell. -/
inductive DateForm
  | calendar (year : ℤ) (month day : ℕ)
  | week (year : ℤ) (week weekday : ℕ)
  | ordinal (year : ℤ) (day : ℕ)
  | year (year : ℤ)
  deriving DecidableEq, Repr

/-- The day has the fields; a bare year is its first of January. -/
def DateForm.Names : DateForm → ℤ → Prop
  | .calendar y m d, day => toCivil day = some (y, m, d)
  | .week y w n, day => toIsoWeek day = some (y, w, n)
  | .ordinal y n, day => toOrdinal day = some (y, n)
  | .year y, day => toCivil day = some (y, 1, 1)

/-- The text of a year, and whether it is signed. -/
inductive YearText : Text → Bool → ℤ → Prop
  | plain {digits : Text} : Digits digits → digits.length = 4 →
      YearText digits false (readNat digits)
  | plus {digits : Text} : Digits digits → 4 ≤ digits.length → digits.length ≤ 9 →
      YearText ('+' :: digits) true (readNat digits)
  | minus {digits : Text} : Digits digits → 4 ≤ digits.length → digits.length ≤ 9 →
      YearText ('-' :: digits) true (-(readNat digits : ℤ))

/-- The text of the fields after a year, extended or not. A missing day, weekday or month is the
first. -/
inductive FieldsText (year : ℤ) : Bool → Text → DateForm → Prop
  | year : FieldsText year false [] (.year year)
  | month {e a b} : Digits [a, b] → FieldsText year e [a, b] (.calendar year (readNat [a, b]) 1)
  | ordinal {e a b c} : Digits [a, b, c] →
      FieldsText year e [a, b, c] (.ordinal year (readNat [a, b, c]))
  | basic {a b c d} : Digits [a, b] → Digits [c, d] →
      FieldsText year false [a, b, c, d] (.calendar year (readNat [a, b]) (readNat [c, d]))
  | extended {a b c d} : Digits [a, b] → Digits [c, d] →
      FieldsText year true [a, b, '-', c, d] (.calendar year (readNat [a, b]) (readNat [c, d]))
  | week {e a b} : Digits [a, b] → FieldsText year e ['W', a, b] (.week year (readNat [a, b]) 1)
  | weekBasic {a b d} : Digits [a, b] → Digits [d] →
      FieldsText year false ['W', a, b, d] (.week year (readNat [a, b]) (readNat [d]))
  | weekExtended {a b d} : Digits [a, b] → Digits [d] →
      FieldsText year true ['W', a, b, '-', d] (.week year (readNat [a, b]) (readNat [d]))

/-- The text spells the fields of a form: a year, a hyphen in the extended spellings, and the fields.
A signed year takes only the extended ones. -/
def Spells (text : Text) (form : DateForm) : Prop :=
  ∃ yearText signed year extended rest, YearText yearText signed year ∧
    FieldsText year extended rest form ∧
    text = yearText ++ (if extended then '-' :: rest else rest) ∧
    (signed = true → extended = true ∨ rest = [])

/-! ## The parser meets the grammar -/

variable {a b : Char}

theorem digits_two (h : Digits [a, b]) : readNat [a, b] < 100 := by
  simpa using readNat_lt h

theorem digits_one (h : Digits [a]) : readNat [a] < 10 := by
  simpa using readNat_lt h

variable {c : Char}

theorem digits_three (h : Digits [a, b, c]) : readNat [a, b, c] < 1000 := by
  simpa using readNat_lt h

variable {n : ℕ}

theorem asU8_nat (h : n < 256) : asU8 n = n := by
  unfold asU8
  omega

theorem asU16_nat (h : n < 65536) : asU16 n = n := by
  unfold asU16
  omega

/-- A short field is read when its bytes are digits. -/
theorem number_short (hne : bytes ≠ []) (hlen : bytes.length ≤ 9) :
    (Digits bytes ∧ number bytes = some (readNat bytes : ℤ)) ∨
      ¬ Digits bytes ∧ number bytes = none := by
  by_cases h : Digits bytes
  · exact Or.inl ⟨h, number_eq_some.mpr ⟨hne, hlen, h, rfl⟩⟩
  · refine Or.inr ⟨h, eq_none_iff_forall_ne_some.mpr fun n hn => ?_⟩
    exact h (number_eq_some.mp hn).2.2.1

theorem not_digit_W (h : Digits ('W' :: bytes)) : False := by
  have := h 'W' mem_cons_self
  simp at this

variable {year : ℤ} {date : CanonicalDate}

theorem parseCivil_eq_ok {d : Char} :
    parseCivil year [a, b] [c, d] = .ok date ↔ Digits [a, b] ∧ Digits [c, d] ∧
      toCivil date.epochDay = some (year, readNat [a, b], readNat [c, d]) := by
  unfold parseCivil
  rcases @number_short [a, b] (by simp) (by simp) with ⟨h₁, hn₁⟩ | ⟨h₁, hn₁⟩
  · rcases @number_short [c, d] (by simp) (by simp) with ⟨h₂, hn₂⟩ | ⟨h₂, hn₂⟩
    · have hm := digits_two h₁
      have hd := digits_two h₂
      rw [hn₁, hn₂]
      dsimp only
      rw [asU8_nat (by omega), asU8_nat (by omega), CanonicalDate.fromCivil,
        CanonicalDate.within_eq_ok, fromCivil_iff]
      simp [h₁, h₂]
    · simp [hn₁, hn₂, h₂]
  · simp [hn₁, h₁]

/-- What the week bytes can be. -/
def WeekText (extended : Bool) (bytes week : Text) (weekday : ℕ) : Prop :=
  ∃ a b, week = [a, b] ∧ ((bytes = [a, b] ∧ weekday = 1) ∨
    ∃ d, Digits [d] ∧ weekday = readNat [d] ∧
      bytes = if extended then [a, b, '-', d] else [a, b, d])

variable {extended : Bool}

theorem weekFields_eq_some {week : Text} {weekday : ℤ} :
    weekFields extended bytes = some (week, weekday) ↔
      ∃ n : ℕ, weekday = n ∧ WeekText extended bytes week n := by
  constructor
  · intro h
    unfold weekFields at h
    split at h
    · next a b =>
      obtain ⟨rfl, rfl⟩ : [a, b] = week ∧ 1 = weekday := by simpa using h
      exact ⟨1, rfl, a, b, rfl, Or.inl ⟨rfl, rfl⟩⟩
    · next a b hyphen d =>
      split at h
      · next hhyphen =>
        obtain ⟨n, hn, heq⟩ := map_eq_some_iff.mp h
        obtain ⟨rfl, rfl⟩ := Prod.mk.inj heq
        obtain ⟨-, -, hd, hn⟩ := number_eq_some.mp hn
        exact ⟨_, hn.symm, a, b, rfl, Or.inr ⟨d, hd, rfl, by rw [hhyphen]; rfl⟩⟩
      · cases h
    · next a b d =>
      obtain ⟨n, hn, heq⟩ := map_eq_some_iff.mp h
      obtain ⟨rfl, rfl⟩ := Prod.mk.inj heq
      obtain ⟨-, -, hd, hn⟩ := number_eq_some.mp hn
      exact ⟨_, hn.symm, a, b, rfl, Or.inr ⟨d, hd, rfl, rfl⟩⟩
    · cases h
  · rintro ⟨n, rfl, a, b, rfl, ⟨rfl, rfl⟩ | ⟨d, hd, rfl, rfl⟩⟩
    · rfl
    · have hnumber : number [d] = some (readNat [d] : ℤ) :=
        number_eq_some.mpr ⟨by simp, by simp, hd, rfl⟩
      cases extended with
      | false | true => simp [weekFields, hnumber]

theorem parseWeek_eq_ok : parseWeek year extended bytes = .ok date ↔ ∃ week weekday,
      WeekText extended bytes week weekday ∧ Digits week ∧ toIsoWeek date.epochDay = some (year, readNat week, weekday) := by
  have hday : ∀ {week : Text} {weekday : ℕ}, WeekText extended bytes week weekday →
      week.length = 2 ∧ weekday < 256 := by
    rintro week weekday ⟨a, b, rfl, ⟨-, rfl⟩ | ⟨d, hd, rfl, -⟩⟩
    · simp
    · have := digits_one hd
      exact ⟨rfl, by omega⟩
  unfold parseWeek
  constructor
  · intro h
    split at h
    · cases h
    · next week weekday hfields =>
      obtain ⟨n, rfl, hweek⟩ := weekFields_eq_some.mp hfields
      split at h
      · next w hw =>
        obtain ⟨-, -, hdigits, rfl⟩ := number_eq_some.mp hw
        have hlt := readNat_lt hdigits
        rw [(hday hweek).1] at hlt
        rw [asU8_nat (by omega), asU8_nat (hday hweek).2, CanonicalDate.fromIsoWeek_eq_ok,
          fromIsoWeek_iff] at h
        exact ⟨week, n, hweek, hdigits, h⟩
      · cases h
  · rintro ⟨week, n, hweek, hdigits, h⟩
    have hlen := (hday hweek).1
    have hlt := readNat_lt hdigits
    rw [hlen] at hlt
    have hnumber : number week = some (readNat week : ℤ) :=
      number_eq_some.mpr ⟨by rintro rfl; simp at hlen, by omega, hdigits, rfl⟩
    rw [weekFields_eq_some.mpr ⟨n, rfl, hweek⟩]
    dsimp only
    rw [hnumber]
    dsimp only
    rw [asU8_nat (by omega), asU8_nat (hday hweek).2, CanonicalDate.fromIsoWeek_eq_ok,
      fromIsoWeek_iff]
    exact h

theorem parseMonth_eq_ok : parseMonth year [a, b] = .ok date ↔
      Digits [a, b] ∧ toCivil date.epochDay = some (year, readNat [a, b], 1) := by
  unfold parseMonth
  rcases @number_short [a, b] (by simp) (by simp) with ⟨h, hn⟩ | ⟨h, hn⟩
  · have hm := digits_two h
    rw [hn]
    dsimp only
    rw [asU8_nat (by omega), CanonicalDate.fromCivil, CanonicalDate.within_eq_ok, fromCivil_iff]
    simp [h]
  · simp [hn, h]

theorem parseOrdinal_eq_ok : parseOrdinal year [a, b, c] = .ok date ↔
      Digits [a, b, c] ∧ toOrdinal date.epochDay = some (year, readNat [a, b, c]) := by
  unfold parseOrdinal
  rcases @number_short [a, b, c] (by simp) (by simp) with ⟨h, hn⟩ | ⟨h, hn⟩
  · have hm := digits_three h
    rw [hn]
    dsimp only
    rw [asU16_nat (by omega), CanonicalDate.fromOrdinal, CanonicalDate.within_eq_ok,
      fromOrdinal_iff]
    simp [h]
  · simp [hn, h]

theorem two_of_length (h : 2 ≤ bytes.length) : ∃ a b rest, bytes = a :: b :: rest := by
  match bytes, h with
  | a :: b :: rest, _ => exact ⟨a, b, rest, rfl⟩

variable {rest : Text}

theorem parseOther_sound (h : parseOther year extended rest = .ok date) :
    ∃ form, FieldsText year extended rest form ∧ form.Names date.epochDay := by
  unfold parseOther at h
  split at h
  · next hlen =>
    rw [CanonicalDate.fromCivil, CanonicalDate.within_eq_ok, fromCivil_iff] at h
    rw [length_eq_zero_iff.mp hlen]
    exact ⟨_, .year, h⟩
  · next hlen =>
    obtain ⟨a, b, rfl⟩ := length_eq_two.mp hlen
    obtain ⟨hdigits, h⟩ := parseMonth_eq_ok.mp h
    exact ⟨_, .month hdigits, h⟩
  · next hlen =>
    obtain ⟨a, b, c, rfl⟩ := length_eq_three.mp hlen
    obtain ⟨hdigits, h⟩ := parseOrdinal_eq_ok.mp h
    exact ⟨_, .ordinal hdigits, h⟩
  · next hlen =>
    obtain ⟨a, b, c, d, rfl⟩ : ∃ a b c d, rest = [a, b, c, d] := by
      obtain ⟨a, b, rest, rfl⟩ := two_of_length (show 2 ≤ rest.length by omega)
      obtain ⟨c, d, rfl⟩ := length_eq_two.mp (by simpa using hlen)
      exact ⟨a, b, c, d, rfl⟩
    obtain ⟨h₁, h₂, h⟩ := parseCivil_eq_ok.mp h
    exact ⟨_, .basic h₁ h₂, h⟩
  · next hlen =>
    obtain ⟨a, b, hyphen, c, d, rfl⟩ : ∃ a b hyphen c d, rest = [a, b, hyphen, c, d] := by
      obtain ⟨a, b, rest, rfl⟩ := two_of_length (show 2 ≤ rest.length by omega)
      obtain ⟨hyphen, c, d, rfl⟩ := length_eq_three.mp (by simpa using hlen)
      exact ⟨a, b, hyphen, c, d, rfl⟩
    split at h
    · next hhyphen =>
      obtain rfl : hyphen = '-' := by simpa using hhyphen
      obtain ⟨h₁, h₂, h⟩ := parseCivil_eq_ok.mp h
      exact ⟨_, .extended h₁ h₂, h⟩
    · cases h
  · cases h

theorem parseFields_iff : parseFields year extended rest = .ok date ↔
      ∃ form, FieldsText year extended rest form ∧ form.Names date.epochDay := by
  constructor
  · intro h
    unfold parseFields at h
    split at h
    · next hhead =>
      obtain ⟨bytes, rfl⟩ : ∃ bytes, rest = 'W' :: bytes := by
        cases rest with
        | nil => cases hhead
        | cons c bytes =>
          obtain rfl : c = 'W' := by simpa using hhead
          exact ⟨bytes, rfl⟩
      obtain ⟨week, weekday, ⟨a, b, rfl, ⟨hbytes, rfl⟩ | ⟨d, hd, rfl, hbytes⟩⟩, hdigits, hnames⟩ :=
        parseWeek_eq_ok.mp h
      · rw [tail_cons] at hbytes
        rw [hbytes]
        exact ⟨_, .week hdigits, hnames⟩
      · rw [tail_cons] at hbytes
        rw [hbytes]
        cases extended with
        | false => exact ⟨_, .weekBasic hdigits hd, hnames⟩
        | true => exact ⟨_, .weekExtended hdigits hd, hnames⟩
    · exact parseOther_sound h
  · rintro ⟨form, hfields, h⟩
    have hplain : ∀ {c : Char} {bytes : Text}, Digits (c :: bytes) → c ≠ 'W' := by
      rintro c bytes hdigits rfl
      exact not_digit_W hdigits
    unfold parseFields
    cases hfields with
    | year =>
      rw [if_neg (by simp)]
      change CanonicalDate.fromCivil year 1 1 = _
      rw [CanonicalDate.fromCivil, CanonicalDate.within_eq_ok, fromCivil_iff]
      exact h
    | month hdigits =>
      rw [if_neg (by simpa using hplain hdigits)]
      cases extended <;> exact parseMonth_eq_ok.mpr ⟨hdigits, h⟩
    | ordinal hdigits =>
      rw [if_neg (by simpa using hplain hdigits)]
      cases extended <;> exact parseOrdinal_eq_ok.mpr ⟨hdigits, h⟩
    | basic h₁ h₂ | extended h₁ h₂ =>
      rw [if_neg (by simpa using hplain h₁)]
      exact parseCivil_eq_ok.mpr ⟨h₁, h₂, h⟩
    | week hdigits =>
      rw [if_pos (by simp)]
      exact parseWeek_eq_ok.mpr ⟨_, _, ⟨_, _, rfl, Or.inl ⟨rfl, rfl⟩⟩, hdigits, h⟩
    | weekBasic hdigits hd | weekExtended hdigits hd =>
      rw [if_pos (by simp)]
      exact parseWeek_eq_ok.mpr ⟨_, _, ⟨_, _, rfl, Or.inr ⟨_, hd, rfl, rfl⟩⟩, hdigits, h⟩

variable {form : DateForm}

theorem fieldsText_unique {form' : DateForm} (h : FieldsText year extended rest form)
    (h' : FieldsText year extended rest form') :
    form = form' := by
  cases h <;> cases h' <;> first | rfl | (exfalso; exact not_digit_W ‹_›)

/-- What stands after the year: a hyphen and the fields, or fields that start with no hyphen. -/
def TailText (extended : Bool) (tail rest : Text) : Prop :=
  tail = (if extended then '-' :: rest else rest) ∧ (extended = false → rest.head? ≠ some '-')

theorem tailText_split (tail : Text) : TailText (tail.head? == some '-') tail
      (if tail.head? == some '-' then tail.tail else tail) := by
  unfold TailText
  cases tail with
  | nil => simp
  | cons c tail =>
    by_cases h : c = '-'
    · simp [h]
    · simp [h]

variable {tail : Text}

theorem tailText_unique (h : TailText extended tail rest) :
    (tail.head? == some '-') = extended ∧ (if extended then tail.tail else tail) = rest := by
  obtain ⟨rfl, hhead⟩ := h
  cases extended with
  | false =>
    have := hhead rfl
    simpa using this
  | true => simp

variable {text : Text}

theorem splitYear_of {text digits tail rest : Text} {sign : Option ℤ} {extended : Bool}
    (hsign : splitSign text = (sign, digits ++ tail)) (hdigits : Digits digits)
    (hcount : (if sign = none then 4 else ((digits ++ tail).takeWhile Char.isDigit).length) =
      digits.length) (hlow : 4 ≤ digits.length) (hhigh : digits.length ≤ 9)
    (htail : TailText extended tail rest) (hsigned : sign ≠ none → extended = true ∨ tail = []) :
    splitYear text = some (readNat digits * sign.getD 1, extended, rest) := by
  obtain ⟨hext, hrest⟩ := tailText_unique htail
  have hnumber : number digits = some (readNat digits : ℤ) :=
    number_eq_some.mpr ⟨by rintro rfl; simp at hlow, hhigh, hdigits, rfl⟩
  unfold splitYear
  simp only [hsign, hcount, take_left, drop_left, hnumber, hext, hrest]
  rw [if_neg (by simp; omega), if_neg]
  rintro ⟨hs, hne, he⟩
  rcases hsigned hs with h | h
  · rw [h] at he
    cases he
  · exact hne h

theorem takeWhile_year {digits : Text} (hdigits : Digits digits)
    (htail : TailText extended tail rest) (h : extended = true ∨ tail = []) :
    (digits ++ tail).takeWhile Char.isDigit = digits := by
  rcases h with rfl | rfl
  · rw [htail.1]
    exact (span_of_all hdigits (by decide) rest).1
  · rw [append_nil]
    exact (span_all hdigits).1

theorem splitSign_digit (h : c.isDigit = true) (bytes : Text) :
    splitSign (c :: bytes) = (none, c :: bytes) := by
  obtain ⟨d, hd, rfl⟩ := digit_value h
  interval_cases d <;> rfl

theorem splitSign_cases {body : Text} {sign : Option ℤ} (h : splitSign text = (sign, body)) :
    (sign = some 1 ∧ text = '+' :: body) ∨ (sign = some (-1) ∧ text = '-' :: body) ∨
      (sign = none ∧ text = body) := by
  unfold splitSign at h
  cases text with
  | nil => simpa [eq_comm] using h
  | cons c text =>
    split at h
    · next hc =>
      obtain rfl : c = '+' := by simpa using hc
      obtain ⟨rfl, rfl⟩ := Prod.mk.inj h
      exact Or.inl ⟨rfl, rfl⟩
    · split at h
      · next hc =>
        obtain rfl : c = '-' := by simpa using hc
        obtain ⟨rfl, rfl⟩ := Prod.mk.inj h
        exact Or.inr (Or.inl ⟨rfl, rfl⟩)
      · obtain ⟨rfl, rfl⟩ := Prod.mk.inj h
        exact Or.inr (Or.inr ⟨rfl, rfl⟩)

theorem splitYear_iff : splitYear text = some (year, extended, rest) ↔
      ∃ yearText signed tail, YearText yearText signed year ∧ text = yearText ++ tail ∧
        TailText extended tail rest ∧ (signed = true → extended = true ∨ tail = []) := by
  constructor
  · intro h
    unfold splitYear at h
    obtain ⟨sign, body, hsign⟩ : ∃ sign body, splitSign text = (sign, body) := ⟨_, _, rfl⟩
    simp only [hsign] at h
    obtain ⟨k, hk⟩ : ∃ k, k = if sign = none then 4 else (body.takeWhile Char.isDigit).length :=
      ⟨_, rfl⟩
    rw [← hk] at h
    split at h
    · cases h
    next hbounds =>
    have hlen : (body.take k).length = k := by
      rw [length_take]
      omega
    split at h
    · cases h
    next magnitude hnumber =>
    obtain ⟨-, -, hdigits, rfl⟩ := number_eq_some.mp hnumber
    split at h
    · cases h
    next hsigned =>
    obtain ⟨rfl, heq⟩ := Prod.mk.inj (some.inj h)
    obtain ⟨rfl, rfl⟩ := Prod.mk.inj heq
    have htail := tailText_split (body.drop k)
    have hcover : sign ≠ none → ((body.drop k).head? == some '-') = true ∨ body.drop k = [] := by
      intro hs
      by_contra hcon
      rw [not_or] at hcon
      exact hsigned ⟨hs, hcon.2, by simpa using hcon.1⟩
    have hbody : body.take k ++ body.drop k = body := take_append_drop k body
    rcases splitSign_cases hsign with ⟨rfl, rfl⟩ | ⟨rfl, rfl⟩ | ⟨rfl, rfl⟩
    · refine ⟨'+' :: body.take k, true, body.drop k, ?_, by simp, htail, fun _ => hcover (by simp)⟩
      simpa using YearText.plus hdigits (by omega) (by omega)
    · refine ⟨'-' :: body.take k, true, body.drop k, ?_, by simp, htail, fun _ => hcover (by simp)⟩
      simpa using YearText.minus hdigits (by omega) (by omega)
    · refine ⟨text.take k, false, text.drop k, ?_, by simp, htail, fun h => by cases h⟩
      simpa using YearText.plain hdigits (hlen.trans (by simpa using hk))
  · rintro ⟨yearText, signed, tail, hyear, rfl, htail, hsigned⟩
    cases hyear with
    | plain hdigits hlen =>
      obtain ⟨c, ds, rfl⟩ := exists_cons_of_length_pos (show 0 < yearText.length by omega)
      have := @splitYear_of (c :: ds ++ tail) (c :: ds) tail rest none extended
        (splitSign_digit (hdigits c mem_cons_self) _) hdigits (by simpa using hlen.symm)
        (by omega) (by omega) htail fun h => absurd rfl h
      simpa using this
    | @plus digits hdigits hlow hhigh =>
      have hstop := takeWhile_year hdigits htail (hsigned rfl)
      have := @splitYear_of ('+' :: digits ++ tail) digits tail rest (some 1) extended rfl hdigits
        (by simp [hstop]) hlow hhigh htail fun _ => hsigned rfl
      simpa using this
    | @minus digits hdigits hlow hhigh =>
      have hstop := takeWhile_year hdigits htail (hsigned rfl)
      have := @splitYear_of ('-' :: digits ++ tail) digits tail rest (some (-1)) extended rfl
        hdigits (by simp [hstop]) hlow hhigh htail fun _ => hsigned rfl
      simpa using this

theorem fieldsText_head (h : FieldsText year extended rest form) : rest.head? ≠ some '-' := by
  have hplain : ∀ {c : Char} {bytes : Text}, Digits (c :: bytes) → c ≠ '-' :=
    fun hdigits => (digit_plain (hdigits _ mem_cons_self)).2.2.1
  cases h with
  | year | week | weekBasic | weekExtended => simp
  | month h | ordinal h | basic h | extended h => simpa using hplain h

/-- The grammar, by the halves of the parser. -/
theorem spells_iff : Spells text form ↔
    ∃ year extended rest, splitYear text = some (year, extended, rest) ∧
      FieldsText year extended rest form := by
  constructor
  · rintro ⟨yearText, signed, year, extended, rest, hyear, hfields, htext, hsigned⟩
    refine ⟨year, extended, rest, splitYear_iff.mpr ⟨yearText, signed, _, hyear, htext,
      ⟨rfl, fun _ => fieldsText_head hfields⟩, fun hs => ?_⟩, hfields⟩
    rcases hsigned hs with h | h
    · exact Or.inl h
    · cases extended with
      | false => exact Or.inr h
      | true => exact Or.inl rfl
  · rintro ⟨year, extended, rest, hsplit, hfields⟩
    obtain ⟨yearText, signed, tail, hyear, htext, htail, hsigned⟩ := splitYear_iff.mp hsplit
    refine ⟨yearText, signed, year, extended, rest, hyear, hfields, by rw [htext, htail.1],
      fun hs => ?_⟩
    rcases hsigned hs with h | h
    · exact Or.inl h
    · cases extended with
      | false => exact Or.inr (htail.1.symm.trans h)
      | true => exact Or.inl rfl

theorem spells_unique {form' : DateForm} (h : Spells text form)
    (h' : Spells text form') : form = form' := by
  obtain ⟨year, extended, rest, hsplit, hfields⟩ := spells_iff.mp h
  obtain ⟨year', extended', rest', hsplit', hfields'⟩ := spells_iff.mp h'
  rw [hsplit] at hsplit'
  cases hsplit'
  exact fieldsText_unique hfields hfields'

theorem parseDate_iff : parseDate text = .ok date ↔
    ∃ form, Spells text form ∧ form.Names date.epochDay := by
  unfold parseDate
  constructor
  · intro h
    split at h
    · cases h
    · next year extended rest hsplit =>
      obtain ⟨form, hfields, hnames⟩ := parseFields_iff.mp h
      exact ⟨form, spells_iff.mpr ⟨year, extended, rest, hsplit, hfields⟩, hnames⟩
  · rintro ⟨form, hspells, hnames⟩
    obtain ⟨year, extended, rest, hsplit, hfields⟩ := spells_iff.mp hspells
    rw [hsplit]
    exact parseFields_iff.mpr ⟨form, hfields, hnames⟩

/-! ## Printing -/

/-- A number, padded with zeros to a width. -/
def pad (width n : ℕ) : Text := List.replicate (width - (showNat n).length) '0' ++ showNat n

/-- The year of `Display` (L243-249). -/
def showYear (year : ℤ) : Text :=
  if 0 ≤ year ∧ year ≤ 9999 then pad 4 year.natAbs
  else if year > 9999 then '+' :: showNat year.natAbs
  else '-' :: pad 4 year.natAbs

/-- `Display` for `CanonicalDate` (L240-252). -/
def displayDate (date : CanonicalDate) : Text :=
  showYear date.civil.1 ++ '-' :: (pad 2 date.civil.2.1 ++ '-' :: pad 2 date.civil.2.2)

theorem pad_digits (width n : ℕ) : Digits (pad width n) := by
  intro c hc
  rcases mem_append.mp hc with hc | hc
  · rw [eq_of_mem_replicate hc]
    decide
  · exact showNat_digits n c hc

theorem readNat_pad (width n : ℕ) : readNat (pad width n) = n := by
  rw [pad, readNat_zeros, readNat_showNat]

theorem length_pad (width n : ℕ) : (pad width n).length = max width (showNat n).length := by
  rw [pad, length_append, length_replicate]
  omega

theorem length_pad_of_lt {width : ℕ} (hwidth : 1 ≤ width) (h : n < 10 ^ width) :
    (pad width n).length = width := by
  have := (length_showNat n hwidth).mpr h
  rw [length_pad]
  omega

theorem pad_two (h : n < 100) : ∃ a b, pad 2 n = [a, b] ∧ Digits [a, b] ∧ readNat [a, b] = n := by
  obtain ⟨a, b, hab⟩ := length_eq_two.mp (length_pad_of_lt (show 1 ≤ 2 by omega) h)
  exact ⟨a, b, hab, hab ▸ pad_digits 2 n, hab ▸ readNat_pad 2 n⟩

theorem showYear_spec (h : yearInRange year = true) :
    ∃ signed, YearText (showYear year) signed year := by
  obtain ⟨hmin, hmax⟩ := (yearInRange_iff year).mp h
  unfold minYear at hmin
  unfold maxYear at hmax
  have hnine := (length_showNat year.natAbs (show 1 ≤ 9 by omega)).mpr (by omega)
  unfold showYear
  split
  · refine ⟨false, ?_⟩
    have := YearText.plain (pad_digits 4 year.natAbs)
      (length_pad_of_lt (by omega) (show year.natAbs < 10 ^ 4 by omega))
    rw [readNat_pad] at this
    rwa [show ((year.natAbs : ℕ) : ℤ) = year by omega] at this
  · split
    · have hfour : ¬ (showNat year.natAbs).length ≤ 3 := by
        rw [length_showNat _ (by omega)]
        omega
      refine ⟨true, ?_⟩
      have := YearText.plus (showNat_digits year.natAbs) (by omega) hnine
      rw [readNat_showNat] at this
      rwa [show ((year.natAbs : ℕ) : ℤ) = year by omega] at this
    · refine ⟨true, ?_⟩
      have := YearText.minus (pad_digits 4 year.natAbs) (by rw [length_pad]; omega)
        (by rw [length_pad]; omega)
      rw [readNat_pad] at this
      rwa [show (-(year.natAbs : ℕ) : ℤ) = year by omega] at this

/-- The text of a date spells its calendar fields. -/
theorem displayDate_spells (date : CanonicalDate) :
    Spells (displayDate date) (.calendar date.civil.1 date.civil.2.1 date.civil.2.2) := by
  obtain ⟨⟨y, m, d⟩, hcivil⟩ : ∃ fields, date.civil = fields := ⟨_, rfl⟩
  have hfields := date.toCivil_epochDay
  rw [displayDate, hcivil]
  rw [hcivil] at hfields
  obtain ⟨hrange, hvalid, hdays⟩ := toCivil_eq_some.mp hfields
  have hyear : yearInRange y = true := by
    rw [← inRange_of_year (date_in_year hvalid), hdays]
    exact hrange
  have hmonth := month_of_valid hvalid
  have hday := hvalid.2.trans (daysInMonth_le y m)
  obtain ⟨signed, hyearText⟩ := showYear_spec hyear
  obtain ⟨m₁, m₂, hm, hmdigits, hmvalue⟩ := pad_two (show m < 100 by omega)
  obtain ⟨d₁, d₂, hd, hddigits, hdvalue⟩ := pad_two (show d < 100 by omega)
  refine ⟨_, signed, _, true, [m₁, m₂, '-', d₁, d₂], hyearText, ?_, ?_, fun _ => Or.inl rfl⟩
  · have := @FieldsText.extended y _ _ _ _ hmdigits hddigits
    rwa [hmvalue, hdvalue] at this
  · dsimp only
    rw [hm, hd]
    rfl

theorem parseDate_display (date : CanonicalDate) : parseDate (displayDate date) = .ok date :=
  parseDate_iff.mpr ⟨_, displayDate_spells date, date.toCivil_epochDay⟩

end FrankenGraph.Temporal

import FrankenGraph.Temporal.DateText

/-!
# Times of day, offsets and date-times, and their texts

`crates/fgdb-types/src/temporal/time.rs` (L15-450).

A clock and an offset share one loop over two optional fields, `readFields`. A time splits at its
first sign or `Z`, a date-time at its first `T`: no local time has a sign, and no date has a `T`.

Results:

* `parseClock_display`, `parseOffset_write`: a local time and an offset are read back.
* `date_time_texts`: each of the four texts is read back, and every text that is read as a date
  spells exactly one form, of that date.
-/

namespace FrankenGraph.Temporal

open List

/-- `NANOS_PER_SECOND`. -/
def nanosPerSecondNat : ℕ := 1000000000

/-- `NANOS_PER_DAY`. -/
def nanosPerDay : ℕ := 86400 * nanosPerSecondNat

/-- `MAX_UTC_OFFSET_SECONDS`: eighteen hours. -/
def maxUtcOffsetSeconds : ℕ := 18 * 3600

/-- `CanonicalLocalTime` (L22-24). -/
@[ext]
structure CanonicalLocalTime where
  nanosOfDay : ℕ
  valid : nanosOfDay < nanosPerDay

/-- `CanonicalTime` (L28-31). -/
@[ext]
structure CanonicalTime where
  localTime : CanonicalLocalTime
  offsetSeconds : ℤ
  valid : offsetSeconds.natAbs ≤ maxUtcOffsetSeconds

/-- `CanonicalLocalDateTime` (L35-38). -/
@[ext]
structure CanonicalLocalDateTime where
  date : CanonicalDate
  time : CanonicalLocalTime

/-- `enum TimeError` (L42-51). -/
inductive TimeError
  | noSuchTime
  | offsetOutOfRange
  | malformed
  | date (error : DateError)
  deriving DecidableEq, Repr

namespace CanonicalLocalTime

/-- `CanonicalLocalTime::MIDNIGHT`. -/
def midnight : CanonicalLocalTime := ⟨0, by decide⟩

theorem nanos_lt {hour minute second nanosecond : ℕ}
    (h : ¬ (hour > 23 ∨ minute > 59 ∨ second > 59 ∨ nanosecond ≥ nanosPerSecondNat)) :
    ((hour * 60 + minute) * 60 + second) * nanosPerSecondNat + nanosecond < nanosPerDay := by
  unfold nanosPerDay nanosPerSecondNat at *
  omega

/-- `from_hms_nano` (L95-108). -/
def fromHmsNano (hour minute second nanosecond : ℕ) : Except TimeError CanonicalLocalTime :=
  if h : hour > 23 ∨ minute > 59 ∨ second > 59 ∨ nanosecond ≥ nanosPerSecondNat then
    .error .noSuchTime
  else .ok ⟨((hour * 60 + minute) * 60 + second) * nanosPerSecondNat + nanosecond, nanos_lt h⟩

/-- `hour` (L118-120). -/
def hour (self : CanonicalLocalTime) : ℕ := self.nanosOfDay / (3600 * nanosPerSecondNat) % 2 ^ 8

/-- `minute` (L124-126). -/
def minute (self : CanonicalLocalTime) : ℕ :=
  self.nanosOfDay / (60 * nanosPerSecondNat) % 60 % 2 ^ 8

/-- `second` (L130-132). -/
def second (self : CanonicalLocalTime) : ℕ := self.nanosOfDay / nanosPerSecondNat % 60 % 2 ^ 8

/-- `nanosecond` (L136-138). -/
def nanosecond (self : CanonicalLocalTime) : ℕ := self.nanosOfDay % nanosPerSecondNat % 2 ^ 32

theorem fields_lt (self : CanonicalLocalTime) :
    self.hour < 24 ∧ self.minute < 60 ∧ self.second < 60 ∧ self.nanosecond < 10 ^ 9 := by
  have h := self.valid
  unfold nanosPerDay at h
  unfold hour minute second nanosecond nanosPerSecondNat at *
  omega

/-- The fields give the time. -/
theorem fromHmsNano_fields (self : CanonicalLocalTime) :
    fromHmsNano self.hour self.minute self.second self.nanosecond = .ok self := by
  obtain ⟨h₁, h₂, h₃, h₄⟩ := self.fields_lt
  unfold fromHmsNano
  rw [dif_neg (by unfold nanosPerSecondNat; omega)]
  congr 1
  ext
  have h := self.valid
  unfold nanosPerDay at h
  dsimp only
  unfold hour minute second nanosecond nanosPerSecondNat at *
  omega

end CanonicalLocalTime

/-- `CanonicalTime::new` (L160-168). -/
def CanonicalTime.new (localTime : CanonicalLocalTime) (offsetSeconds : ℤ) :
    Except TimeError CanonicalTime :=
  if h : offsetSeconds.natAbs > maxUtcOffsetSeconds then .error .offsetOutOfRange
  else .ok ⟨localTime, offsetSeconds, not_lt.mp h⟩

/-! ## Parsing -/

/-- `two_digits` (L290-295). -/
def twoDigits (bytes : Text) (index : ℕ) : Option ℕ :=
  match (bytes.drop index).take 2 with
  | [tens, ones] =>
    if tens.isDigit ∧ ones.isDigit then some ((tens.toNat - 48) * 10 + (ones.toNat - 48)) else none
  | _ => none

/-- The loop over the fields after the hours, in `parse_clock` (L304-316) and in `parse_offset`
(L386-398): the fields read, zeros for those the text does not have, and where it stopped. -/
def readFields (bytes : Text) (extended : Bool) : ℕ → ℕ → Except TimeError (List ℕ × ℕ)
  | 0, index => .ok ([], index)
  | count + 1, index =>
    if index = bytes.length then .ok (List.replicate (count + 1) 0, index)
    else if extended ∧ bytes[index]? ≠ some ':' then .error .malformed
    else
      match twoDigits bytes (if extended then index + 1 else index) with
      | none => .error .malformed
      | some field =>
        (readFields bytes extended count ((if extended then index + 1 else index) + 2)).map
          fun (fields, index) => (field :: fields, index)

/-- The fraction of `parse_clock` (L317-331), in nanoseconds. Only seconds take one. -/
def readFraction (bytes : Text) (extended : Bool) (index : ℕ) : Except TimeError ℕ :=
  if index < bytes.length then
    match bytes.drop index with
    | point :: fraction =>
      if point = '.' ∧ index ≥ (if extended then 8 else 6) then
        if fraction.isEmpty ∨ fraction.length > 9 ∨ ¬ fraction.all Char.isDigit then
          .error .malformed
        else .ok (readNat fraction * 10 ^ (9 - fraction.length))
      else .error .malformed
    | [] => .error .malformed
  else .ok 0

/-- `parse_clock` (L298-333). -/
def parseClock (bytes : Text) : Except TimeError CanonicalLocalTime :=
  match twoDigits bytes 0 with
  | none => .error .malformed
  | some hour => do
    let extended := bytes[2]? == some ':'
    let (fields, index) ← readFields bytes extended 2 2
    let nanosecond ← readFraction bytes extended index
    CanonicalLocalTime.fromHmsNano hour (fields.getD 0 0) (fields.getD 1 0) nanosecond

/-- `CanonicalLocalTime::parse_iso` (L149-151). -/
def parseLocalTime (text : Text) : Except TimeError CanonicalLocalTime := parseClock text

/-- The signed part of `parse_offset` (L381-411). -/
def parseSigned (sign : ℤ) (body : Text) : Except TimeError ℤ :=
  match twoDigits body 0 with
  | none => .error .malformed
  | some hours => do
    let (fields, index) ← readFields body (body[2]? == some ':') 2 2
    if index ≠ body.length then .error .malformed
    else if fields.getD 0 0 > 59 ∨ fields.getD 1 0 > 59 then .error .offsetOutOfRange
    else if (hours * 60 + fields.getD 0 0) * 60 + fields.getD 1 0 > maxUtcOffsetSeconds then
      .error .offsetOutOfRange
    else .ok (sign * (((hours * 60 + fields.getD 0 0) * 60 + fields.getD 1 0 : ℕ) : ℤ))

/-- `parse_offset` (L374-411). -/
def parseOffset (bytes : Text) : Except TimeError ℤ :=
  if bytes = ['Z'] then .ok 0
  else if bytes.head? = some '+' then parseSigned 1 bytes.tail
  else if bytes.head? = some '-' then parseSigned (-1) bytes.tail
  else .error .malformed

/-- No byte starts an offset. -/
def noOffset (byte : Char) : Bool := !(byte == '+' || byte == '-' || byte == 'Z')

/-- `CanonicalTime::parse_iso` (L217-230). -/
def parseTime (text : Text) : Except TimeError CanonicalTime := do
  let localTime ← parseClock (text.takeWhile noOffset)
  let offset ← if text.dropWhile noOffset = [] then .ok 0 else parseOffset (text.dropWhile noOffset)
  CanonicalTime.new localTime offset

/-- `CanonicalLocalDateTime::parse_iso` (L277-286). -/
def parseLocalDateTime (text : Text) : Except TimeError CanonicalLocalDateTime := do
  let (date, time) ←
    match text.dropWhile (· != 'T') with
    | [] => .ok (text, CanonicalLocalTime.midnight)
    | _ :: time => (parseClock time).map fun time => (text.takeWhile (· != 'T'), time)
  match parseDate date with
  | .error error => .error (.date error)
  | .ok date => .ok ⟨date, time⟩

/-! ## Printing -/

/-- The fraction of `Display` for `CanonicalLocalTime` (L424-432), with the seconds. -/
def showClockTail (second nanosecond : ℕ) : Text :=
  if second = 0 ∧ nanosecond = 0 then []
  else ':' :: (pad 2 second ++
    if nanosecond = 0 then []
    else if nanosecond % 1000000 = 0 then '.' :: pad 3 (nanosecond / 1000000)
    else if nanosecond % 1000 = 0 then '.' :: pad 6 (nanosecond / 1000)
    else '.' :: pad 9 nanosecond)

/-- `Display` for `CanonicalLocalTime` (L416-434). -/
def displayLocalTime (time : CanonicalLocalTime) : Text :=
  pad 2 time.hour ++ ':' :: (pad 2 time.minute ++ showClockTail time.second time.nanosecond)

/-- `write_offset` (L359-371). -/
def writeOffset (offsetSeconds : ℤ) : Text :=
  if offsetSeconds = 0 then ['Z']
  else
    let magnitude := offsetSeconds.natAbs
    (if offsetSeconds < 0 then '-' else '+') ::
      (pad 2 (magnitude / 3600) ++ ':' :: (pad 2 (magnitude / 60 % 60) ++
        if magnitude % 60 ≠ 0 then ':' :: pad 2 (magnitude % 60) else []))

/-- `Display` for `CanonicalTime` (L438-443). -/
def displayTime (time : CanonicalTime) : Text :=
  displayLocalTime time.localTime ++ writeOffset time.offsetSeconds

/-- `Display` for `CanonicalLocalDateTime` (L446-450). -/
def displayLocalDateTime (value : CanonicalLocalDateTime) : Text :=
  displayDate value.date ++ 'T' :: displayLocalTime value.time

/-! ## Clocks and offsets are read back -/

variable {bytes : Text}

theorem twoDigits_of_drop {rest : Text} {index : ℕ} {a b : Char}
    (h : bytes.drop index = a :: b :: rest) (hdigits : Digits [a, b]) :
    twoDigits bytes index = some (readNat [a, b]) := by
  have ha : a.isDigit = true := hdigits a (by simp)
  have hb : b.isDigit = true := hdigits b (by simp)
  unfold twoDigits
  rw [h]
  simp [ha, hb, readNat]

/-- One turn of the loop, on an extended field. -/
theorem readFields_step {rest : Text} {count index : ℕ} {a b : Char}
    (h : bytes.drop index = ':' :: a :: b :: rest) (hdigits : Digits [a, b]) :
    readFields bytes true (count + 1) index =
      (readFields bytes true count (index + 3)).map fun (fields, index) =>
        (readNat [a, b] :: fields, index) := by
  have hlt : index < bytes.length := by
    by_contra hge
    rw [drop_eq_nil_of_le (by omega)] at h
    cases h
  have hcolon : bytes[index]? = some ':' := by
    rw [← head?_drop, h]
    rfl
  have hfield : bytes.drop (index + 1) = a :: b :: rest := by
    rw [← tail_drop, h]
    rfl
  rw [readFields, if_neg (by omega), if_neg (by simp [hcolon]), if_pos rfl,
    twoDigits_of_drop hfield hdigits]

theorem readFields_end (bytes : Text) (extended : Bool) (count : ℕ) :
    readFields bytes extended count bytes.length = .ok (replicate count 0, bytes.length) := by
  cases count with
  | zero => rfl
  | succ count => rw [readFields, if_pos rfl]

section Extended

variable {h₁ h₂ m₁ m₂ s₁ s₂ : Char} (hh : Digits [h₁, h₂]) (hm : Digits [m₁, m₂])
  (hs : Digits [s₁, s₂])

include hm

theorem readFields_minutes : readFields [h₁, h₂, ':', m₁, m₂] true 2 2 =
    .ok ([readNat [m₁, m₂], 0], 5) := by
  rw [readFields_step rfl hm]
  have := readFields_end [h₁, h₂, ':', m₁, m₂] true 1
  simp only [length_cons, length_nil, Nat.reduceAdd] at this ⊢
  rw [this]
  rfl

include hs

theorem readFields_seconds (rest : Text) :
    readFields (h₁ :: h₂ :: ':' :: m₁ :: m₂ :: ':' :: s₁ :: s₂ :: rest) true 2 2 =
      .ok ([readNat [m₁, m₂], readNat [s₁, s₂]], 8) := by
  rw [readFields_step rfl hm, readFields_step rfl hs]
  rfl

omit hs
include hh

theorem parseClock_minutes : parseClock [h₁, h₂, ':', m₁, m₂] =
    CanonicalLocalTime.fromHmsNano (readNat [h₁, h₂]) (readNat [m₁, m₂]) 0 0 := by
  unfold parseClock
  rw [twoDigits_of_drop rfl hh]
  change (readFields [h₁, h₂, ':', m₁, m₂] true 2 2 >>= _) = _
  rw [readFields_minutes hm]
  generalize readNat [h₁, h₂] = hour, readNat [m₁, m₂] = minute
  rfl

include hs

theorem parseClock_seconds (rest : Text) {nanosecond : ℕ}
    (hfraction : readFraction (h₁ :: h₂ :: ':' :: m₁ :: m₂ :: ':' :: s₁ :: s₂ :: rest) true 8 =
      .ok nanosecond) :
    parseClock (h₁ :: h₂ :: ':' :: m₁ :: m₂ :: ':' :: s₁ :: s₂ :: rest) =
      CanonicalLocalTime.fromHmsNano (readNat [h₁, h₂]) (readNat [m₁, m₂]) (readNat [s₁, s₂])
        nanosecond := by
  unfold parseClock
  rw [twoDigits_of_drop rfl hh]
  change (readFields (h₁ :: h₂ :: ':' :: m₁ :: m₂ :: ':' :: s₁ :: s₂ :: rest) true 2 2 >>= _) = _
  rw [readFields_seconds hm hs]
  change (readFraction (h₁ :: h₂ :: ':' :: m₁ :: m₂ :: ':' :: s₁ :: s₂ :: rest) true 8 >>= _) = _
  rw [hfraction]
  generalize readNat [h₁, h₂] = hour, readNat [m₁, m₂] = minute, readNat [s₁, s₂] = second
  rfl

end Extended

/-- A fraction of one to nine digits, after the seconds. -/
theorem readFraction_pad {width n : ℕ} (hwidth : 1 ≤ width) (hnine : width ≤ 9)
    (hn : n < 10 ^ width) (h : bytes.drop 8 = '.' :: pad width n) :
    readFraction bytes true 8 = .ok (n * 10 ^ (9 - width)) := by
  have hlen := length_pad_of_lt hwidth hn
  have hlt : 8 < bytes.length := by
    by_contra hge
    rw [drop_eq_nil_of_le (by omega)] at h
    cases h
  have hne : pad width n ≠ [] := by
    intro hnil
    rw [hnil] at hlen
    simp at hlen
    omega
  have hall : (pad width n).all Char.isDigit = true := all_eq_true.mpr (pad_digits width n)
  unfold readFraction
  rw [if_pos hlt, h]
  dsimp only
  rw [if_pos (by simp), if_neg (by simp [hne, hlen, hall]; omega), hlen, readNat_pad]

/-- The fraction is printed in the fewest groups of three digits that hold it. -/
theorem readFraction_show {second nanosecond : ℕ} (hlt : nanosecond < 10 ^ 9) {s₁ s₂ : Char}
    (hpad : pad 2 second = [s₁, s₂]) (hshown : ¬ (second = 0 ∧ nanosecond = 0))
    (h : bytes.drop 5 = showClockTail second nanosecond) :
    ∃ rest, showClockTail second nanosecond = ':' :: s₁ :: s₂ :: rest ∧
      readFraction bytes true 8 = .ok nanosecond := by
  rw [showClockTail, if_neg hshown, hpad] at h ⊢
  refine ⟨_, rfl, ?_⟩
  have hdrop : bytes.drop 8 = (bytes.drop 5).drop 3 := by rw [drop_drop]
  rw [h] at hdrop
  split at hdrop
  · next hzero =>
    have hlen : bytes.length ≤ 8 := by simpa using hdrop
    rw [readFraction, if_neg (by omega), hzero]
  · split at hdrop
    · rw [readFraction_pad (by omega) (by omega) (show nanosecond / 1000000 < 10 ^ 3 by omega)
        hdrop]
      congr 1
      omega
    · split at hdrop
      · rw [readFraction_pad (by omega) (by omega) (show nanosecond / 1000 < 10 ^ 6 by omega) hdrop]
        congr 1
        omega
      · rw [readFraction_pad (by omega) (by omega) hlt hdrop]
        simp

theorem parseClock_display (time : CanonicalLocalTime) :
    parseClock (displayLocalTime time) = .ok time := by
  obtain ⟨hhour, hminute, hsecond, hnano⟩ := time.fields_lt
  have hfields := time.fromHmsNano_fields
  obtain ⟨h₁, h₂, hh, hhdigits, hhvalue⟩ := pad_two (show time.hour < 100 by omega)
  obtain ⟨m₁, m₂, hm, hmdigits, hmvalue⟩ := pad_two (show time.minute < 100 by omega)
  obtain ⟨s₁, s₂, hs, hsdigits, hsvalue⟩ := pad_two (show time.second < 100 by omega)
  rw [displayLocalTime, hh, hm]
  by_cases hshown : time.second = 0 ∧ time.nanosecond = 0
  · rw [showClockTail, if_pos hshown]
    change parseClock [h₁, h₂, ':', m₁, m₂] = _
    rw [parseClock_minutes hhdigits hmdigits, hhvalue, hmvalue]
    rwa [hshown.1, hshown.2] at hfields
  · obtain ⟨rest, htail, hfraction⟩ := @readFraction_show
      ([h₁, h₂] ++ ':' :: ([m₁, m₂] ++ showClockTail time.second time.nanosecond)) _ _ hnano _ _ hs
      hshown rfl
    rw [htail] at hfraction ⊢
    change parseClock (h₁ :: h₂ :: ':' :: m₁ :: m₂ :: ':' :: s₁ :: s₂ :: rest) = _
    rw [parseClock_seconds hhdigits hmdigits hsdigits rest hfraction, hhvalue, hmvalue, hsvalue]
    exact hfields

theorem parseSigned_fields {body : Text} {sign : ℤ} {hours minutes seconds : ℕ}
    (hhours : twoDigits body 0 = some hours)
    (hfields : readFields body (body[2]? == some ':') 2 2 = .ok ([minutes, seconds], body.length))
    (hbounds : minutes ≤ 59 ∧ seconds ≤ 59)
    (hmax : (hours * 60 + minutes) * 60 + seconds ≤ maxUtcOffsetSeconds) :
    parseSigned sign body = .ok (sign * (((hours * 60 + minutes) * 60 + seconds : ℕ) : ℤ)) := by
  unfold parseSigned
  rw [hhours]
  dsimp only
  rw [hfields]
  change (if body.length ≠ body.length then _ else if minutes > 59 ∨ seconds > 59 then _ else
    if (hours * 60 + minutes) * 60 + seconds > maxUtcOffsetSeconds then _ else _) = _
  rw [if_neg (by simp), if_neg (by omega), if_neg (by omega)]
  rfl

/-- The magnitude of an offset is read back after either sign. -/
theorem parseSigned_write (sign : ℤ) {magnitude : ℕ} (hmax : magnitude ≤ maxUtcOffsetSeconds) :
    parseSigned sign (pad 2 (magnitude / 3600) ++ ':' :: (pad 2 (magnitude / 60 % 60) ++
      if magnitude % 60 ≠ 0 then ':' :: pad 2 (magnitude % 60) else [])) =
        .ok (sign * magnitude) := by
  have hbound : magnitude ≤ 64800 := hmax
  have hsum : (magnitude / 3600 * 60 + magnitude / 60 % 60) * 60 + magnitude % 60 = magnitude := by
    omega
  obtain ⟨h₁, h₂, hh, hhdigits, hhvalue⟩ := pad_two (show magnitude / 3600 < 100 by omega)
  obtain ⟨m₁, m₂, hm, hmdigits, hmvalue⟩ := pad_two (show magnitude / 60 % 60 < 100 by omega)
  obtain ⟨s₁, s₂, hs, hsdigits, hsvalue⟩ := pad_two (show magnitude % 60 < 100 by omega)
  rw [hh, hm]
  split
  · rw [hs]
    have hfields := @readFields_seconds h₁ h₂ m₁ m₂ s₁ s₂ hmdigits hsdigits []
    rw [hmvalue, hsvalue] at hfields
    have hhours := @twoDigits_of_drop (h₁ :: h₂ :: ':' :: m₁ :: m₂ :: ':' :: s₁ :: s₂ :: []) _ 0 _ _
      rfl hhdigits
    rw [hhvalue] at hhours
    have := @parseSigned_fields _ sign _ _ _ hhours hfields (by omega) (by rwa [hsum])
    rwa [hsum] at this
  · next hzero =>
    have hfields := @readFields_minutes h₁ h₂ m₁ m₂ hmdigits
    rw [hmvalue] at hfields
    have hhours := @twoDigits_of_drop [h₁, h₂, ':', m₁, m₂] _ 0 _ _ rfl hhdigits
    rw [hhvalue] at hhours
    have hsum' : (magnitude / 3600 * 60 + magnitude / 60 % 60) * 60 + 0 = magnitude := by omega
    have := @parseSigned_fields _ sign _ _ _ hhours hfields (by omega) (by rwa [hsum'])
    rwa [hsum'] at this

theorem parseOffset_write {offset : ℤ} (h : offset.natAbs ≤ maxUtcOffsetSeconds) :
    parseOffset (writeOffset offset) = .ok offset := by
  unfold writeOffset
  split
  · next hzero =>
    rw [hzero]
    rfl
  · have hread := fun sign => parseSigned_write sign h
    unfold parseOffset
    split
    · rw [if_neg (by simp), if_neg (by simp), if_pos (by simp), tail_cons, hread]
      congr 1
      omega
    · rw [if_neg (by simp), if_pos (by simp), tail_cons, hread]
      congr 1
      omega

/-! ## Splitting -/

theorem noOffset_digit {c : Char} (h : c.isDigit = true) : noOffset c = true := by
  obtain ⟨d, hd, rfl⟩ := digit_value h
  interval_cases d <;> decide

/-- The bytes of a local time are digits, colons and a point. -/
theorem displayLocalTime_bytes (time : CanonicalLocalTime) :
    ∀ c ∈ displayLocalTime time, c.isDigit = true ∨ c = ':' ∨ c = '.' := by
  have hpad : ∀ {width n : ℕ} {c : Char}, c ∈ pad width n → c.isDigit = true :=
    fun hc => pad_digits _ _ _ hc
  have htail : ∀ second nanosecond, ∀ c ∈ showClockTail second nanosecond,
      c.isDigit = true ∨ c = ':' ∨ c = '.' := by
    intro second nanosecond c hc
    unfold showClockTail at hc
    split_ifs at hc <;> simp only [mem_cons, mem_append, not_mem_nil, or_false] at hc
    all_goals
      rcases hc with hc | hc
      · exact Or.inr (Or.inl hc)
    all_goals
      first
      | exact Or.inl (hpad hc)
      | rcases hc with hc | hc | hc
        · exact Or.inl (hpad hc)
        · exact Or.inr (Or.inr hc)
        · exact Or.inl (hpad hc)
  intro c hc
  unfold displayLocalTime at hc
  simp only [mem_append, mem_cons] at hc
  rcases hc with hc | hc | hc | hc
  · exact Or.inl (hpad hc)
  · exact Or.inr (Or.inl hc)
  · exact Or.inl (hpad hc)
  · exact htail _ _ c hc

theorem writeOffset_head (offset : ℤ) :
    ∃ c rest, writeOffset offset = c :: rest ∧ noOffset c = false := by
  unfold writeOffset
  split
  · exact ⟨'Z', [], rfl, rfl⟩
  · refine ⟨_, _, rfl, ?_⟩
    split <;> rfl

theorem parseTime_display (time : CanonicalTime) : parseTime (displayTime time) = .ok time := by
  have hplain : ∀ c ∈ displayLocalTime time.localTime, noOffset c = true := by
    intro c hc
    rcases displayLocalTime_bytes _ c hc with h | rfl | rfl
    · exact noOffset_digit h
    · rfl
    · rfl
  have hoffset := parseOffset_write time.valid
  obtain ⟨c, rest, hwrite, hstop⟩ := writeOffset_head time.offsetSeconds
  obtain ⟨htake, hdrop⟩ := span_of_all hplain hstop rest
  unfold parseTime displayTime
  rw [hwrite, htake, hdrop, parseClock_display]
  change (if c :: rest = [] then CanonicalTime.new time.localTime 0
    else parseOffset (c :: rest) >>= CanonicalTime.new time.localTime) = _
  rw [if_neg (by simp), ← hwrite, hoffset]
  exact dif_neg (not_lt.mpr time.valid)

/-- No year and no date has a `T`. -/
theorem displayDate_bytes (date : CanonicalDate) : ∀ c ∈ displayDate date, (c != 'T') = true := by
  have hdigit : ∀ {c : Char}, c.isDigit = true → (c != 'T') = true := by
    intro c hc
    simpa using (digit_plain hc).2.2.2
  have hpad : ∀ {width n : ℕ} {c : Char}, c ∈ pad width n → (c != 'T') = true :=
    fun hc => hdigit (pad_digits _ _ _ hc)
  intro c hc
  unfold displayDate at hc
  simp only [mem_append, mem_cons] at hc
  rcases hc with hc | rfl | hc | rfl | hc
  · unfold showYear at hc
    split at hc
    · exact hpad hc
    · split at hc
      · rcases mem_cons.mp hc with rfl | hc
        · rfl
        · exact hdigit (showNat_digits _ _ hc)
      · rcases mem_cons.mp hc with rfl | hc
        · rfl
        · exact hpad hc
  · rfl
  · exact hpad hc
  · rfl
  · exact hpad hc

theorem parseLocalDateTime_display (value : CanonicalLocalDateTime) :
    parseLocalDateTime (displayLocalDateTime value) = .ok value := by
  obtain ⟨htake, hdrop⟩ := @span_of_all (· != 'T') (displayDate value.date)
    (displayDate_bytes value.date) 'T' rfl (displayLocalTime value.time)
  unfold parseLocalDateTime displayLocalDateTime
  rw [hdrop, htake]
  dsimp only
  rw [parseClock_display]
  change (match parseDate (displayDate value.date) with
    | .error error => Except.error (TimeError.date error)
    | .ok date => .ok (CanonicalLocalDateTime.mk date value.time)) = _
  rw [parseDate_display]

/-- The texts of dates, local times, times at an offset and local date-times are read back; and a
text that is read as a date spells exactly one form, whose fields are those of the date. -/
theorem date_time_texts : (∀ date, parseDate (displayDate date) = .ok date) ∧
    (∀ time, parseLocalTime (displayLocalTime time) = .ok time) ∧
    (∀ time, parseTime (displayTime time) = .ok time) ∧
    (∀ value, parseLocalDateTime (displayLocalDateTime value) = .ok value) ∧
    ∀ text date, parseDate text = .ok date → ∃ form, Spells text form ∧ form.Names date.epochDay ∧
        ∀ other, Spells text other → other = form := by
  refine ⟨parseDate_display, parseClock_display, parseTime_display, parseLocalDateTime_display, ?_⟩
  intro text date h
  obtain ⟨form, hspells, hnames⟩ := parseDate_iff.mp h
  exact ⟨form, hspells, hnames, fun other hother => spells_unique hother hspells⟩

end FrankenGraph.Temporal

import FrankenGraph.Library.Rounding

/-!
# Products and quotients of decimals

`crates/fgdb-types/src/decimal.rs` (L14-45, 224-233 and 256-291) and
`crates/fgdb-types/src/decimal/arithmetic.rs` (L9-118): coefficients of at most 34 digits at scale
18, multiplied and divided with one rounding. A product that does not fit in a `u128` is divided bit by
bit of the multiplier.

The unsigned operations are computed in `ℕ`. An operation that would leave `u128`, checked or not, is
`Stop.overflow`, and a quotient past the limit is `Stop.overLimit`; the source answers `None` to both.

Results:
* `wideLoop_spec`: the loop is the exact quotient and remainder, or the quotient is past the limit
* `roundedProduct_eq`: one rounding, half to even
* `mul_div_nearest`: products and quotients are correctly rounded, and nothing overflows
-/

namespace FrankenGraph.Decimal

/-- `UNIT`. -/
def unit : ℕ := 10 ^ 18

/-- `MAX_DECIMAL_COEFFICIENT` (decimal.rs L26), and `LIMIT` (arithmetic.rs L10), the same as a `u128`. -/
def maxDecimalCoefficient : ℕ := 9999999999999999999999999999999999

/-- `STRICT_PORTABLE_DECIMAL_PRECISION`. -/
def precision : ℕ := 34

/-- `enum DecimalOperation` (decimal.rs L256-266), the two of this module. -/
inductive DecimalOperation
  | multiply
  | divide
deriving DecidableEq

/-- `enum DecimalError` (decimal.rs L286-291); scales are not in question here. -/
inductive DecimalError
  | coefficientOutOfRange (coefficient : ℤ) (precision : ℕ)
  | arithmeticOverflow (operation : DecimalOperation)
  | divisionByZero
deriving DecidableEq

/-- `struct CanonicalDecimal` (decimal.rs L36-38): the coefficient is in range. -/
structure CanonicalDecimal where
  coefficient : ℤ
  canonical : -(maxDecimalCoefficient : ℤ) ≤ coefficient ∧ coefficient ≤ maxDecimalCoefficient
deriving DecidableEq

/-- `CanonicalDecimal::from_coefficient` and `validate_coefficient` (decimal.rs L42-45 and
224-232). -/
def fromCoefficient (coefficient : ℤ) : Except DecimalError CanonicalDecimal :=
  if h : -(maxDecimalCoefficient : ℤ) ≤ coefficient ∧ coefficient ≤ maxDecimalCoefficient
  then .ok ⟨coefficient, h⟩
  else .error (.coefficientOutOfRange coefficient precision)

/-- Why a computation on `u128` stops. -/
inductive Stop
  | overflow
  | overLimit
deriving DecidableEq

/-- An operation on `u128` with this exact result. -/
def u128 (x : ℕ) : Except Stop ℕ := if x < 2 ^ 128 then .ok x else .error .overflow

/-- A subtraction on `u128`. -/
def sub (a b : ℕ) : Except Stop ℕ := if b ≤ a then .ok (a - b) else .error .overflow

/-! ## The wide quotient -/

/-- One pass of the inner loop of `wide_product_quotient`. -/
def normalize (divisor : ℕ) : ℕ × ℕ → Except Stop (ℕ × ℕ)
  | (quotient, remainder) =>
    if divisor ≤ remainder then do
      let remainder ← sub remainder divisor
      let quotient ← u128 (quotient + 1)
      pure (quotient, remainder)
    else pure (quotient, remainder)

/-- The addition of one bit of the multiplier. -/
def addBit (addQ addR : ℕ) (bit : Bool) : ℕ × ℕ → Except Stop (ℕ × ℕ)
  | (quotient, remainder) =>
    if bit then do
      let quotient ← u128 (quotient + addQ)
      let remainder ← u128 (remainder + addR)
      pure (quotient, remainder)
    else pure (quotient, remainder)

/-- The body of the loop of `wide_product_quotient`. -/
def wideStep (addQ addR divisor : ℕ) (bit : Bool) (state : ℕ × ℕ) : Except Stop (ℕ × ℕ) := do
  let quotient ← u128 (state.1 * 2)
  let remainder ← u128 (state.2 * 2)
  let state ← addBit addQ addR bit (quotient, remainder)
  let state ← normalize divisor state
  let state ← normalize divisor state
  if maxDecimalCoefficient < state.1 then throw .overLimit
  pure state

/-- The loop of `wide_product_quotient` over the bits below `bits`, the high ones first. -/
def wideLoop (addQ addR divisor b : ℕ) : ℕ → ℕ × ℕ → Except Stop (ℕ × ℕ)
  | 0, state => pure state
  | bit + 1, state => do
    let state ← wideStep addQ addR divisor (b.testBit bit) state
    wideLoop addQ addR divisor b bit state

/-- `wide_product_quotient` (L97-118). -/
def wideProductQuotient (a b divisor : ℕ) : Except Stop (ℕ × ℕ) :=
  wideLoop (a / divisor) (a % divisor) divisor b (Nat.size b) (0, 0)

/-- The rounding of `rounded_product`, after the exact quotient and remainder. -/
def roundQuotient (divisor : ℕ) : ℕ × ℕ → Except Stop ℕ
  | (quotient, remainder) => do
  let half ← sub divisor remainder
  let increment := remainder > half ∨ remainder = half ∧ quotient % 2 = 1
  let coefficient ← u128 (quotient + if increment then 1 else 0)
  if coefficient ≤ maxDecimalCoefficient then pure coefficient else throw .overLimit

/-- `rounded_product` (L74-86). -/
def roundedProduct (a b divisor : ℕ) : Except Stop ℕ := do
  let exact ←
    if a * b < 2 ^ 128 then pure (a * b / divisor, a * b % divisor)
    else wideProductQuotient a b divisor
  roundQuotient divisor exact

namespace CanonicalDecimal

/-- `CanonicalDecimal::product_ratio` (L58-71). -/
def productRatio (self rhs : CanonicalDecimal) (multiplier divisor : ℕ)
    (operation : DecimalOperation) : Except DecimalError CanonicalDecimal :=
  match roundedProduct self.coefficient.natAbs multiplier divisor with
  | .error _ => .error (.arithmeticOverflow operation)
  | .ok magnitude =>
    if magnitude < 2 ^ 127 then
      let negative := decide (self.coefficient < 0) != decide (rhs.coefficient < 0)
      fromCoefficient (if negative then -(magnitude : ℤ) else magnitude)
    else .error (.arithmeticOverflow operation)

/-- `CanonicalDecimal::checked_mul` (L17-24). -/
def checkedMul (self rhs : CanonicalDecimal) : Except DecimalError CanonicalDecimal :=
  self.productRatio rhs rhs.coefficient.natAbs unit .multiply

/-- `CanonicalDecimal::checked_div` (L30-40). -/
def checkedDiv (self rhs : CanonicalDecimal) : Except DecimalError CanonicalDecimal :=
  if rhs.coefficient = 0 then .error .divisionByZero
  else self.productRatio rhs unit rhs.coefficient.natAbs .divide

/-- The number a decimal stands for. -/
def value (self : CanonicalDecimal) : ℚ := self.coefficient / 10 ^ 18

theorem natAbs_le (self : CanonicalDecimal) : self.coefficient.natAbs ≤ maxDecimalCoefficient := by
  have := self.canonical
  omega

end CanonicalDecimal

/-! ## The loop -/

theorem u128_of_lt {x : ℕ} (h : x < 2 ^ 128) : u128 x = .ok x := if_pos h

variable {a : ℕ}

theorem sub_of_le {b : ℕ} (h : b ≤ a) : sub a b = .ok (a - b) := if_pos h

/-- The pair is a quotient and a remainder of `n`, not yet reduced. -/
def Divides (divisor n : ℕ) (state : ℕ × ℕ) : Prop := n = state.1 * divisor + state.2

variable {divisor n : ℕ}

theorem normalize_spec {state : ℕ × ℕ} (h : Divides divisor n state)
    (hsmall : state.1 + 1 < 2 ^ 128) :
    ∃ state', normalize divisor state = .ok state' ∧ Divides divisor n state' ∧
      state'.1 ≤ state.1 + 1 ∧
      state'.2 = if divisor ≤ state.2 then state.2 - divisor else state.2 := by
  obtain ⟨quotient, remainder⟩ := state
  unfold normalize
  by_cases hge : divisor ≤ remainder
  · refine ⟨(quotient + 1, remainder - divisor), ?_, ?_, Nat.le_refl _, (if_pos hge).symm⟩
    · simp only [if_pos hge, sub_of_le hge, bind, Except.bind]
      rw [u128_of_lt hsmall]
      rfl
    · simp only [Divides] at h ⊢
      rw [h, Nat.add_mul, Nat.one_mul]
      omega
  · exact ⟨(quotient, remainder), if_neg hge, h, Nat.le_succ _, (if_neg hge).symm⟩

theorem addBit_spec {p : ℕ} {quotient remainder : ℕ} (bit : Bool)
    (h : Divides divisor (a * (2 * p)) (quotient, remainder))
    (hq : quotient + a / divisor < 2 ^ 128) (hr : remainder + a % divisor < 2 ^ 128) :
    ∃ state, addBit (a / divisor) (a % divisor) bit (quotient, remainder) = .ok state ∧
      Divides divisor (a * (2 * p + bit.toNat)) state ∧ state.1 ≤ quotient + a / divisor ∧
      state.2 ≤ remainder + a % divisor := by
  cases bit with
  | false =>
    exact ⟨(quotient, remainder), rfl, h, Nat.le_add_right _ _, Nat.le_add_right _ _⟩
  | true =>
    refine ⟨(quotient + a / divisor, remainder + a % divisor), ?_, ?_, Nat.le_refl _, Nat.le_refl _⟩
    · unfold addBit
      simp only [if_true, u128_of_lt hq, u128_of_lt hr, bind, Except.bind]
      rfl
    · simp only [Divides, Bool.toNat_true] at h ⊢
      have hdiv := Nat.div_add_mod a divisor
      rw [Nat.mul_add, h, Nat.mul_one, Nat.add_mul, Nat.mul_comm (a / divisor)]
      omega

/-- One bit: the exact quotient and remainder of the longer multiplier, unless it is past the limit. -/
theorem wideStep_spec {p : ℕ} (ha : a ≤ maxDecimalCoefficient)
    (hdivisor : divisor ≤ maxDecimalCoefficient) (hpos : 0 < divisor)
    {state : ℕ × ℕ} (h : Divides divisor (a * p) state) (hrem : state.2 < divisor)
    (hlimit : state.1 ≤ maxDecimalCoefficient) (bit : Bool) :
    (∃ state', wideStep (a / divisor) (a % divisor) divisor bit state = .ok state' ∧
      Divides divisor (a * (2 * p + bit.toNat)) state' ∧ state'.2 < divisor ∧
      state'.1 ≤ maxDecimalCoefficient) ∨
    (wideStep (a / divisor) (a % divisor) divisor bit state = .error .overLimit ∧
      maxDecimalCoefficient < a * (2 * p + bit.toNat) / divisor) := by
  obtain ⟨quotient, remainder⟩ := state
  have haq : a / divisor ≤ maxDecimalCoefficient := le_trans (Nat.div_le_self a divisor) ha
  have har : a % divisor < divisor := Nat.mod_lt a hpos
  have hl : maxDecimalCoefficient < 2 ^ 113 := by decide
  simp only at hrem hlimit
  have hdouble : Divides divisor (a * (2 * p)) (quotient * 2, remainder * 2) := by
    simp only [Divides] at h ⊢
    rw [Nat.mul_left_comm, h]
    ring
  obtain ⟨s₁, hs₁, hd₁, hq₁, hr₁⟩ := addBit_spec bit hdouble (by omega) (by omega)
  obtain ⟨s₂, hs₂, hd₂, hq₂, hr₂⟩ := normalize_spec hd₁ (by omega)
  obtain ⟨s₃, hs₃, hd₃, hq₃, hr₃⟩ := normalize_spec hd₂ (by omega)
  have hreduced : s₃.2 < divisor := by
    split at hr₂ <;> split at hr₃ <;> omega
  have hstep : wideStep (a / divisor) (a % divisor) divisor bit (quotient, remainder) =
      if maxDecimalCoefficient < s₃.1 then .error .overLimit else .ok s₃ := by
    unfold wideStep
    simp only [u128_of_lt (show quotient * 2 < 2 ^ 128 by omega),
      u128_of_lt (show remainder * 2 < 2 ^ 128 by omega), bind, Except.bind, hs₁, hs₂, hs₃]
    split <;> rfl
  rw [hstep]
  by_cases hover : maxDecimalCoefficient < s₃.1
  · refine Or.inr ⟨if_pos hover, ?_⟩
    rw [hd₃, Nat.mul_comm, Nat.mul_add_div hpos, Nat.div_eq_of_lt hreduced]
    omega
  · exact Or.inl ⟨s₃, if_neg hover, hd₃, hreduced, Nat.le_of_not_lt hover⟩

/-- The high bits of `b` down to one more. -/
theorem shiftRight_succ_bit (b i : ℕ) : b >>> i = 2 * (b >>> (i + 1)) + (b.testBit i).toNat := by
  have hbit : (b.testBit i).toNat = (b >>> i) % 2 := by
    rw [Nat.testBit_eq_decide_div_mod_eq, Nat.shiftRight_eq_div_pow]
    have := Nat.mod_two_eq_zero_or_one (b / 2 ^ i)
    rcases this with h | h <;> simp [h]
  rw [hbit, Nat.shiftRight_succ]
  omega

/-- The loop, from the bits it has seen; the induction is on the bits still to come. -/
theorem wideLoop_spec (ha : a ≤ maxDecimalCoefficient) (hdivisor : divisor ≤ maxDecimalCoefficient)
    (hpos : 0 < divisor) (b bits : ℕ) :
    ∀ state : ℕ × ℕ, Divides divisor (a * (b >>> bits)) state → state.2 < divisor →
      state.1 ≤ maxDecimalCoefficient →
      (wideLoop (a / divisor) (a % divisor) divisor b bits state =
        .ok (a * b / divisor, a * b % divisor) ∧ a * b / divisor ≤ maxDecimalCoefficient) ∨
      (wideLoop (a / divisor) (a % divisor) divisor b bits state = .error .overLimit ∧
        maxDecimalCoefficient < a * b / divisor) := by
  induction bits with
  | zero =>
    rintro ⟨quotient, remainder⟩ h hrem hlimit
    simp only [Divides, Nat.shiftRight_zero] at h hrem
    have hquotient : a * b / divisor = quotient := by
      rw [h, Nat.mul_comm quotient, Nat.mul_add_div hpos, Nat.div_eq_of_lt hrem, Nat.add_zero]
    have hremainder : a * b % divisor = remainder := by
      rw [h, Nat.mul_comm quotient, Nat.mul_add_mod, Nat.mod_eq_of_lt hrem]
    rw [hquotient, hremainder]
    exact Or.inl ⟨rfl, hlimit⟩
  | succ bit ih =>
    intro state h hrem hlimit
    rw [wideLoop]
    obtain ⟨state', hstep, hd, hr, hl⟩ | ⟨hstep, hover⟩ :=
      wideStep_spec ha hdivisor hpos h hrem hlimit (b.testBit bit)
    · rw [hstep]
      refine ih state' ?_ hr hl
      rw [shiftRight_succ_bit]
      exact hd
    · rw [hstep]
      refine Or.inr ⟨rfl, lt_of_lt_of_le hover ?_⟩
      -- A quotient past the limit does not shrink as more bits are appended.
      rw [← shiftRight_succ_bit]
      exact Nat.div_le_div_right (Nat.mul_le_mul_left a (Nat.shiftRight_le b bit))

theorem wideProductQuotient_spec (ha : a ≤ maxDecimalCoefficient)
    (hdivisor : divisor ≤ maxDecimalCoefficient) (hpos : 0 < divisor) (b : ℕ) :
    (wideProductQuotient a b divisor = .ok (a * b / divisor, a * b % divisor) ∧
        a * b / divisor ≤ maxDecimalCoefficient) ∨
      (wideProductQuotient a b divisor = .error .overLimit ∧ maxDecimalCoefficient < a * b / divisor) := by
  refine wideLoop_spec ha hdivisor hpos b (Nat.size b) (0, 0) ?_ hpos (Nat.zero_le _)
  have hshift : b >>> Nat.size b = 0 := by
    rw [Nat.shiftRight_eq_div_pow, Nat.div_eq_of_lt (Nat.lt_size_self b)]
  simp [Divides, hshift]

/-- The rounding never overflows: where it goes up, the divisor is two or more. -/
theorem roundQuotient_eq (hpos : 0 < divisor)
    (hsmall : n < 2 ^ 128 ∨ n / divisor ≤ maxDecimalCoefficient) :
    roundQuotient divisor (n / divisor, n % divisor) =
      if roundHalfEven n divisor ≤ maxDecimalCoefficient then .ok (roundHalfEven n divisor)
      else .error .overLimit := by
  have hrem : n % divisor < divisor := Nat.mod_lt n hpos
  have hl : maxDecimalCoefficient < 2 ^ 113 := by decide
  have hincrement : (n % divisor > divisor - n % divisor ∨
      n % divisor = divisor - n % divisor ∧ n / divisor % 2 = 1) ↔
      (divisor < 2 * (n % divisor) ∨ 2 * (n % divisor) = divisor ∧ n / divisor % 2 = 1) := by
    omega
  have hround : n / divisor + (if n % divisor > divisor - n % divisor ∨
      n % divisor = divisor - n % divisor ∧ n / divisor % 2 = 1 then 1 else 0) =
      roundHalfEven n divisor := by
    simp only [hincrement, roundHalfEven]
  have hfits : roundHalfEven n divisor < 2 ^ 128 := by
    unfold roundHalfEven
    obtain hn | hn := hsmall
    · have hdiv := Nat.div_add_mod n divisor
      split
      · next hup =>
        have htwo : 2 * (n / divisor) ≤ divisor * (n / divisor) :=
          Nat.mul_le_mul_right _ (by omega)
        omega
      · have := Nat.div_le_self n divisor
        omega
    · split <;> omega
  unfold roundQuotient
  simp only [sub_of_le hrem.le, bind, Except.bind]
  rw [hround, u128_of_lt hfits]
  rfl

/-- The quotient rounded half to even, unless it is past the limit; nothing overflows. -/
theorem roundedProduct_eq (ha : a ≤ maxDecimalCoefficient) (hdivisor : divisor ≤ maxDecimalCoefficient)
    (hpos : 0 < divisor) (b : ℕ) :
    roundedProduct a b divisor =
      if roundHalfEven (a * b) divisor ≤ maxDecimalCoefficient then .ok (roundHalfEven (a * b) divisor)
      else .error .overLimit := by
  unfold roundedProduct
  by_cases hnarrow : a * b < 2 ^ 128
  · rw [if_pos hnarrow]
    exact roundQuotient_eq hpos (Or.inl hnarrow)
  · rw [if_neg hnarrow]
    obtain ⟨hwide, hlimit⟩ | ⟨hwide, hover⟩ := wideProductQuotient_spec ha hdivisor hpos b
    · rw [hwide]
      exact roundQuotient_eq hpos (Or.inr hlimit)
    · have hpast : ¬ roundHalfEven (a * b) divisor ≤ maxDecimalCoefficient := by
        unfold roundHalfEven
        omega
      rw [hwide, if_neg hpast]
      rfl

/-! ## Signs -/

/-- The exact coefficient of a ratio of integers is its magnitude with a sign. -/
theorem nearestEven_signed {x y : ℤ} (hpos : 0 < divisor) {exact : ℚ} (hexact : exact =
      (if (decide (x < 0) != decide (y < 0)) = true then -1 else 1) * ((n : ℚ) / divisor)) :
    NearestEven exact (if (decide (x < 0) != decide (y < 0)) = true
      then -(roundHalfEven n divisor : ℤ) else roundHalfEven n divisor) := by
  rw [hexact]
  have hnearest := nearestEven_roundHalfEven n hpos
  split
  · rw [neg_one_mul]
    exact hnearest.neg
  · rw [one_mul]
    exact hnearest

/-- What a correctly rounded operation answers for the exact coefficient `exact`. -/
def Rounded (exact : ℚ) (operation : DecimalOperation)
    (answer : Except DecimalError CanonicalDecimal) : Prop :=
  ∃ coefficient : ℤ, NearestEven exact coefficient ∧
    (∀ other, NearestEven exact other → other = coefficient) ∧
    ((∃ result : CanonicalDecimal, result.coefficient = coefficient ∧ answer = .ok result) ∨
      (¬ (-(maxDecimalCoefficient : ℤ) ≤ coefficient ∧ coefficient ≤ maxDecimalCoefficient) ∧
        answer = .error (.arithmeticOverflow operation)))

theorem productRatio_rounded (self rhs : CanonicalDecimal) {multiplier : ℕ}
    (hdivisor : divisor ≤ maxDecimalCoefficient) (hpos : 0 < divisor) (operation : DecimalOperation) {exact : ℚ}
    (hexact : exact = (if (decide (self.coefficient < 0) != decide (rhs.coefficient < 0)) = true
      then -1 else 1) * (((self.coefficient.natAbs * multiplier : ℕ) : ℚ) / divisor)) :
    Rounded exact operation (self.productRatio rhs multiplier divisor operation) := by
  have hnearest := nearestEven_signed hpos hexact
  refine ⟨_, hnearest, fun other hother => hother.unique hnearest, ?_⟩
  unfold CanonicalDecimal.productRatio
  rw [roundedProduct_eq self.natAbs_le hdivisor hpos]
  by_cases hfits : roundHalfEven (self.coefficient.natAbs * multiplier) divisor ≤ maxDecimalCoefficient
  · have hl : maxDecimalCoefficient < 2 ^ 113 := by decide
    refine Or.inl ?_
    rw [if_pos hfits]
    have hi128 : roundHalfEven (self.coefficient.natAbs * multiplier) divisor < 2 ^ 127 := by omega
    simp only
    rw [if_pos hi128]
    unfold fromCoefficient
    rw [dif_pos (by split <;> constructor <;> omega)]
    exact ⟨_, rfl, rfl⟩
  · refine Or.inr ⟨?_, ?_⟩
    · split <;> omega
    · rw [if_neg hfits]

theorem sign_mul (x y : ℤ) : ((x : ℚ) * y) =
    (if (decide (x < 0) != decide (y < 0)) = true then -1 else 1) * ((x.natAbs : ℚ) * y.natAbs) := by
  rcases lt_or_ge x 0 with hx | hx <;> rcases lt_or_ge y 0 with hy | hy
  · simp [hx, hy, abs_of_neg]
  · simp [hx, not_lt.mpr hy, abs_of_neg, abs_of_nonneg (Int.cast_nonneg (R := ℚ) hy)]
  · simp [hy, not_lt.mpr hx, abs_of_neg, abs_of_nonneg (Int.cast_nonneg (R := ℚ) hx)]
  · simp [not_lt.mpr hx, not_lt.mpr hy, abs_of_nonneg, hx, hy]

theorem sign_div (x : ℤ) {y : ℤ} (hy : y ≠ 0) : ((x : ℚ) / y) =
    (if (decide (x < 0) != decide (y < 0)) = true then -1 else 1) * ((x.natAbs : ℚ) / y.natAbs) := by
  have hy' : (y : ℚ) ≠ 0 := by exact_mod_cast hy
  have hsq : (y : ℚ) * y = (y.natAbs : ℚ) * y.natAbs := by
    rw [Nat.cast_natAbs, Int.cast_abs, abs_mul_abs_self]
  have habs : (y.natAbs : ℚ) ≠ 0 := by exact_mod_cast Int.natAbs_ne_zero.mpr hy
  have hmul := sign_mul x y
  calc (x : ℚ) / y = (x * y) / (y * y) := by field_simp
    _ = _ := by
      rw [hmul, hsq]
      field_simp

/-! ## The operations -/

/-- Products and quotients are the nearest decimals, ties to the even coefficient; they fail exactly
when that coefficient has more than 34 digits, and no operation on `u128` overflows. -/
theorem mul_div_nearest (a b : CanonicalDecimal) :
    Rounded (a.value * b.value * 10 ^ 18) .multiply (a.checkedMul b) ∧
    (b.coefficient ≠ 0 → Rounded (a.value / b.value * 10 ^ 18) .divide (a.checkedDiv b)) ∧
    (b.coefficient = 0 → a.checkedDiv b = .error .divisionByZero) ∧
    roundedProduct a.coefficient.natAbs b.coefficient.natAbs unit ≠ .error .overflow ∧
    (b.coefficient ≠ 0 →
      roundedProduct a.coefficient.natAbs unit b.coefficient.natAbs ≠ .error .overflow) := by
  have hunit : 0 < unit := by decide
  have hnot : ∀ {x divisor : ℕ}, divisor ≤ maxDecimalCoefficient → 0 < divisor →
      roundedProduct a.coefficient.natAbs x divisor ≠ .error .overflow := by
    intro x divisor hdivisor hpos
    rw [roundedProduct_eq a.natAbs_le hdivisor hpos]
    split <;> simp
  refine ⟨?_, fun hb => ?_, fun hb => if_pos hb, hnot (by decide) hunit,
    fun hb => hnot b.natAbs_le (Int.natAbs_pos.mpr hb)⟩
  · refine productRatio_rounded a b (by decide) hunit .multiply ?_
    have hcast : (unit : ℚ) = 10 ^ 18 := by norm_num [unit]
    have hsign := sign_mul a.coefficient b.coefficient
    rw [CanonicalDecimal.value, CanonicalDecimal.value, Nat.cast_mul, hcast]
    calc (a.coefficient : ℚ) / 10 ^ 18 * (b.coefficient / 10 ^ 18) * 10 ^ 18 =
        (a.coefficient * b.coefficient) / 10 ^ 18 := by field_simp
      _ = _ := by rw [hsign, mul_div_assoc]
  · unfold CanonicalDecimal.checkedDiv
    rw [if_neg hb]
    refine productRatio_rounded a b b.natAbs_le (Int.natAbs_pos.mpr hb) .divide ?_
    have hcast : (unit : ℚ) = 10 ^ 18 := by norm_num [unit]
    have hb' : (b.coefficient : ℚ) ≠ 0 := by exact_mod_cast hb
    rw [CanonicalDecimal.value, CanonicalDecimal.value, Nat.cast_mul, hcast, mul_div_right_comm,
      ← mul_assoc, ← sign_div a.coefficient hb]
    field_simp

end FrankenGraph.Decimal

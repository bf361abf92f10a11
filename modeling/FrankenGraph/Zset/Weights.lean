import Mathlib

/-!
# Exact weights

`fgdb-delta-types/src/zweight.rs`: an integer that fits in an `i128` is kept inline, and any other one
as a big integer. The arithmetic of big integers is a parameter with its contract: under a limit of
limbs an operation is exact or an error, and with enough limbs (and memory) it is not an error.

Results:
* `ZWeight.ext_value`: an integer has one representation
* `checkedBinary_exact`, `checkedNeg_exact`, `checkedClone_exact`: weights meet the same contract
-/

namespace FrankenGraph.Zset

/-- The integers of an `i128`. -/
abbrev I128 := {n : Int // -2 ^ 127 ≤ n ∧ n < 2 ^ 127}

/-- The result of a checked `i128` operation: nothing on overflow. -/
def I128.checked (n : Int) : Option I128 :=
  if h : -2 ^ 127 ≤ n ∧ n < 2 ^ 127 then some ⟨n, h⟩ else none

variable {B E A : Type}

/-- An operation under a limit of limbs returns an integer, and only an error when the limit is too
small. -/
structure Exact (value : A → Int) (result : Int) (op : Nat → Except E A) : Prop where
  exact : ∀ limit a, op limit = .ok a → value a = result
  ample : ∃ enough, ∀ limit ≥ enough, ∃ a, op limit = .ok a

theorem exact_ok {value : A → Int} (a : A) :
    Exact value (value a) fun _ => (.ok a : Except E A) where
  exact _ a' h := by
    cases h
    rfl
  ample := ⟨0, fun _ _ => ⟨a, rfl⟩⟩

/-- The operations of `fgdb_bigint::BigInt` that weights use, with their contract. -/
structure BigInts (B E : Type) where
  value : B → Int
  value_injective : Function.Injective value
  fromI128 : I128 → B
  value_fromI128 : ∀ n, value (fromI128 n) = n
  clone : B → Nat → Except E B
  neg : B → Nat → Except E B
  add : B → B → Nat → Except E B
  sub : B → B → Nat → Except E B
  mul : B → B → Nat → Except E B
  clone_exact : ∀ a, Exact value (value a) (clone a)
  neg_exact : ∀ a, Exact value (-value a) (neg a)
  add_exact : ∀ a b, Exact value (value a + value b) (add a b)
  sub_exact : ∀ a b, Exact value (value a - value b) (sub a b)
  mul_exact : ∀ a b, Exact value (value a * value b) (mul a b)

/-- Big integers that no limit refuses. -/
def limbless : BigInts Int Empty where
  value n := n
  value_injective := Function.injective_id
  fromI128 n := n
  value_fromI128 _ := rfl
  clone a _ := .ok a
  neg a _ := .ok (-a)
  add a b _ := .ok (a + b)
  sub a b _ := .ok (a - b)
  mul a b _ := .ok (a * b)
  clone_exact _ := exact_ok _
  neg_exact _ := exact_ok _
  add_exact _ _ := exact_ok _
  sub_exact _ _ := exact_ok _
  mul_exact _ _ := exact_ok _

/-- `to_i128` of a big integer. -/
def BigInts.toI128 (big : BigInts B E) (b : B) : Option I128 :=
  I128.checked (big.value b)

/-- `Repr` (L37-40). -/
inductive WeightRepr (B : Type) where
  | fast (value : I128)
  | promoted (value : B)

/-- `is_canonical` (L113-118): a big integer is kept only when it does not fit. -/
def WeightRepr.Canonical (big : BigInts B E) : WeightRepr B → Prop
  | .fast _ => True
  | .promoted value => big.toI128 value = none

/-- `ZWeight` (L33-35), canonical by construction. -/
@[ext]
structure ZWeight (big : BigInts B E) where
  repr : WeightRepr B
  canonical : repr.Canonical big

namespace ZWeight

variable {big : BigInts B E}

/-- The integer that a weight stands for. -/
def value (w : ZWeight big) : Int :=
  match w.repr with
  | .fast value => value
  | .promoted value => big.value value

/-- `from_i128` (L50-54). -/
def fromI128 (value : I128) : ZWeight big :=
  ⟨.fast value, trivial⟩

/-- `from_bigint` (L62-69). -/
def fromBigint (value : B) : ZWeight big :=
  match h : big.toI128 value with
  | some inline => fromI128 inline
  | none => ⟨.promoted value, h⟩

/-- `checked_clone` (L124-129). -/
def checkedClone (w : ZWeight big) (limit : Nat) : Except E (ZWeight big) :=
  match w.repr with
  | .fast value => .ok (fromI128 value)
  | .promoted value => (big.clone value limit).map fromBigint

/-- `checked_neg` (L178-188). -/
def checkedNeg (w : ZWeight big) (limit : Nat) : Except E (ZWeight big) :=
  match w.repr with
  | .fast value =>
    match I128.checked (-value) with
    | some result => .ok (fromI128 result)
    | none => (big.neg (big.fromI128 value) limit).map fromBigint
  | .promoted value => (big.neg value limit).map fromBigint

/-- An operation on two weights: on two inline ones in `i128`, and where that overflows and on any
others as on big integers. -/
def checkedBinary (inline : Int → Int → Int) (promoted : B → B → Nat → Except E B)
    (w other : ZWeight big) (limit : Nat) : Except E (ZWeight big) :=
  match w.repr, other.repr with
  | .fast left, .fast right =>
    match I128.checked (inline left right) with
    | some result => .ok (fromI128 result)
    | none => (promoted (big.fromI128 left) (big.fromI128 right) limit).map fromBigint
  | .fast left, .promoted right => (promoted (big.fromI128 left) right limit).map fromBigint
  | .promoted left, .fast right => (promoted left (big.fromI128 right) limit).map fromBigint
  | .promoted left, .promoted right => (promoted left right limit).map fromBigint

/-- `checked_add` (L132-152). -/
def checkedAdd (w other : ZWeight big) : Nat → Except E (ZWeight big) :=
  checkedBinary (· + ·) big.add w other

/-- `checked_sub` (L155-175). -/
def checkedSub (w other : ZWeight big) : Nat → Except E (ZWeight big) :=
  checkedBinary (· - ·) big.sub w other

/-- `checked_mul` (L191-211). -/
def checkedMul (w other : ZWeight big) : Nat → Except E (ZWeight big) :=
  checkedBinary (· * ·) big.mul w other

/-! ## Exactness -/

theorem checked_eq_some {n : Int} {inline : I128} (h : I128.checked n = some inline) :
    (inline : Int) = n := by
  unfold I128.checked at h
  split_ifs at h
  cases h
  rfl

theorem value_fromBigint (b : B) : (fromBigint b : ZWeight big).value = big.value b := by
  unfold fromBigint
  split
  · next h => exact checked_eq_some h
  · rfl

/-- An integer has one representation. -/
theorem ext_value {w w' : ZWeight big} (h : w.value = w'.value) : w = w' := by
  have hfast : ∀ (n : I128) (b : B), (n : Int) = big.value b → big.toI128 b ≠ none := by
    rintro ⟨n, hn⟩ b rfl hnone
    rw [BigInts.toI128, I128.checked, dif_pos hn] at hnone
    cases hnone
  obtain ⟨repr, hcanonical⟩ := w
  obtain ⟨repr', hcanonical'⟩ := w'
  cases repr with
  | fast n =>
    cases repr' with
    | fast n' => exact ZWeight.ext (congrArg WeightRepr.fast (Subtype.ext h))
    | promoted b' => exact absurd hcanonical' (hfast n b' h)
  | promoted b =>
    cases repr' with
    | fast n' => exact absurd hcanonical (hfast n' b h.symm)
    | promoted b' => exact ZWeight.ext (congrArg WeightRepr.promoted (big.value_injective h))

/-- A result that is demoted when it fits is as exact as it was. -/
theorem exact_fromBigint {result : Int} {op : Nat → Except E B} (h : Exact big.value result op) :
    Exact (value : ZWeight big → Int) result fun limit => (op limit).map fromBigint where
  exact limit w hok := by
    cases hop : op limit with
    | error e =>
      rw [hop] at hok
      cases hok
    | ok b =>
      rw [hop] at hok
      cases hok
      rw [value_fromBigint, h.exact limit b hop]
  ample := by
    obtain ⟨enough, henough⟩ := h.ample
    refine ⟨enough, fun limit hlimit => ?_⟩
    obtain ⟨b, hb⟩ := henough limit hlimit
    exact ⟨fromBigint b, by rw [hb]; rfl⟩

/-- An `i128` operation that is done again on big integers when it overflows. -/
theorem exact_retried {result : Int} {op : Nat → Except E B} (h : Exact big.value result op) :
    Exact (value : ZWeight big → Int) result fun limit => match I128.checked result with
      | some inline => .ok (fromI128 inline)
      | none => (op limit).map fromBigint := by
  cases hchecked : I128.checked result with
  | some inline =>
    cases checked_eq_some hchecked
    exact exact_ok (fromI128 inline)
  | none => exact exact_fromBigint h

variable (w other : ZWeight big)

theorem checkedClone_exact : Exact value w.value w.checkedClone := by
  obtain ⟨repr, hcanonical⟩ := w
  cases repr with
  | fast n => exact exact_ok (fromI128 n)
  | promoted b => exact exact_fromBigint (big.clone_exact b)

theorem checkedNeg_exact : Exact value (-w.value) w.checkedNeg := by
  obtain ⟨repr, hcanonical⟩ := w
  cases repr with
  | fast n =>
    have hneg := big.neg_exact (big.fromI128 n)
    rw [big.value_fromI128] at hneg
    exact exact_retried hneg
  | promoted b => exact exact_fromBigint (big.neg_exact b)

theorem checkedBinary_exact {inline : Int → Int → Int} {promoted : B → B → Nat → Except E B}
    (h : ∀ a b, Exact big.value (inline (big.value a) (big.value b)) (promoted a b)) :
    Exact value (inline w.value other.value) (checkedBinary inline promoted w other) := by
  obtain ⟨repr, hcanonical⟩ := w
  obtain ⟨repr', hcanonical'⟩ := other
  cases repr with
  | fast n =>
    cases repr' with
    | fast n' =>
      have hbig := h (big.fromI128 n) (big.fromI128 n')
      rw [big.value_fromI128, big.value_fromI128] at hbig
      exact exact_retried hbig
    | promoted b' =>
      have hbig := h (big.fromI128 n) b'
      rw [big.value_fromI128] at hbig
      exact exact_fromBigint hbig
  | promoted b =>
    cases repr' with
    | fast n' =>
      have hbig := h b (big.fromI128 n')
      rw [big.value_fromI128] at hbig
      exact exact_fromBigint hbig
    | promoted b' => exact exact_fromBigint (h b b')

end ZWeight

end FrankenGraph.Zset

import FrankenGraph.Library.Codec
import FrankenGraph.Library.Fallible

/-!
# Canonical bytes of big integers

`crates/fgdb-bigint/src/lib.rs`: canonical construction (L267-296) and the canonical
byte encoding with its decoder (L1083-1157). A `usize` has 64 bits; an allocation is granted
or refused by a parameter.

Results:

* `decodeMagnitude_iff`: what the decoder accepts after a sign octet;
* `canonical_bytes_inverse`: encoder and decoder are inverse to each other.
-/

namespace FrankenGraph.Bigint

/-! ## Little-endian words -/

/-- `u64::to_le_bytes`. -/
def toLeBytes (word : UInt64) : List UInt8 :=
  (bigEndian 8 word.toNat).reverse

/-- `u64::from_le_bytes`. -/
def fromLeBytes (bytes : List UInt8) : UInt64 :=
  .ofNat (ofBigEndian bytes.reverse)

@[simp]
theorem length_toLeBytes (word : UInt64) : (toLeBytes word).length = 8 := by
  simp [toLeBytes]

@[simp]
theorem fromLeBytes_toLeBytes (word : UInt64) : fromLeBytes (toLeBytes word) = word := by
  rw [fromLeBytes, toLeBytes, List.reverse_reverse, ofBigEndian_bigEndian,
    Nat.mod_eq_of_lt (by simpa using word.toNat_lt)]
  exact UInt64.ofNat_toNat

theorem toLeBytes_fromLeBytes {bytes : List UInt8} (h : bytes.length = 8) :
    toLeBytes (fromLeBytes bytes) = bytes := by
  have hlength : bytes.reverse.length = 8 := by simpa using h
  have hlt := ofBigEndian_lt bytes.reverse
  rw [hlength] at hlt
  rw [toLeBytes, fromLeBytes, UInt64.toNat_ofNat_of_lt' (by simpa using hlt), ← hlength,
    bigEndian_ofBigEndian, List.reverse_reverse]

/-- `as_chunks::<8>` and the loop over the chunks (L1149-1153). -/
def leWords : ℕ → List UInt8 → List UInt64
  | 0, _ => []
  | count + 1, bytes => fromLeBytes (bytes.take 8) :: leWords count (bytes.drop 8)

theorem leWords_flatMap (words : List UInt64) :
    leWords words.length (words.flatMap toLeBytes) = words := by
  induction words with
  | nil => rfl
  | cons word words ih =>
    simp only [List.length_cons, List.flatMap_cons, leWords]
    rw [List.take_left' (length_toLeBytes word), List.drop_left' (length_toLeBytes word), ih,
      fromLeBytes_toLeBytes]

theorem flatMap_leWords {count : ℕ} {bytes : List UInt8} (h : bytes.length = count * 8) :
    (leWords count bytes).length = count ∧ (leWords count bytes).flatMap toLeBytes = bytes := by
  induction count generalizing bytes with
  | zero =>
    rw [List.eq_nil_of_length_eq_zero (by omega : bytes.length = 0)]
    exact ⟨rfl, rfl⟩
  | succ count ih =>
    obtain ⟨hlength, hbytes⟩ := @ih (bytes.drop 8) (by rw [List.length_drop]; omega)
    simp only [leWords, List.length_cons, hlength, List.flatMap_cons, hbytes, true_and]
    rw [toLeBytes_fromLeBytes (by rw [List.length_take]; omega), List.take_append_drop]

/-! ## Canonical construction -/

/-- `enum Sign`. -/
inductive Sign
  | negative
  | zero
  | positive
deriving DecidableEq

/-- `struct BigInt` with the invariant of its constructors. -/
@[ext]
structure BigInt where
  negative : Bool
  limbs : List UInt64
  last_ne : limbs.getLast? ≠ some 0
  zero_sign : limbs = [] → negative = false

/-- `BigInt::zero` (L201-206). -/
def BigInt.zero : BigInt :=
  ⟨false, [], by simp, fun _ => rfl⟩

/-- `enum ConstructionError` (L166-171). -/
inductive ConstructionError
  | limbLimitExceeded (requiredLimbs limit : ℕ)
  | zeroWithMagnitude (limbCount : ℕ)
  | nonzeroSignWithoutMagnitude (sign : Sign)
  | highZeroLimb (sign : Sign) (limbCount : ℕ)

/-- `from_canonical_limbs` (L267-296). -/
def fromCanonicalLimbs (sign : Sign) (limbs : List UInt64) (limit : UInt64) :
    Except ConstructionError BigInt :=
  if limbs.length > limit.toNat then .error (.limbLimitExceeded limbs.length limit.toNat)
  else if sign = .zero then
    if limbs = [] then .ok .zero else .error (.zeroWithMagnitude limbs.length)
  else if hempty : limbs = [] then .error (.nonzeroSignWithoutMagnitude sign)
  else if hlast : limbs.getLast? = some 0 then .error (.highZeroLimb sign limbs.length)
  else .ok ⟨sign == .negative, limbs, hlast, fun h => absurd h hempty⟩

variable {sign : Sign} {limit : UInt64} {value : BigInt}

theorem fromCanonicalLimbs_iff {limbs : List UInt64} (hsign : sign ≠ .zero) :
    fromCanonicalLimbs sign limbs limit = .ok value ↔
      limbs ≠ [] ∧ limbs.length ≤ limit.toNat ∧ value.limbs = limbs ∧
        value.negative = (sign == .negative) := by
  unfold fromCanonicalLimbs
  constructor
  · intro h
    split at h
    · cases h
    · split_ifs at h with hempty hlast
      cases h
      exact ⟨hempty, by omega, rfl, rfl⟩
  · rintro ⟨hempty, hlimit, rfl, hnegative⟩
    rw [if_neg (by omega), if_neg hsign, dif_neg hempty, dif_neg value.last_ne]
    exact congrArg _ (BigInt.ext hnegative.symm rfl)

/-! ## The encoding -/

/-- `encode_canonical_bytes` (L1083-1098). -/
def encodeCanonicalBytes (value : BigInt) : List UInt8 :=
  if value.limbs = [] then [0]
  else (if value.negative then 2 else 1) ::
    (toLeBytes (.ofNat value.limbs.length) ++ value.limbs.flatMap toLeBytes)

/-- `enum DecodeError` (L1175-1199). -/
inductive DecodeError
  | empty
  | unknownSignTag (tag : UInt8)
  | truncatedLimbCount (availableBytes : ℕ)
  | declaredLimbsExceedLimit (declaredLimbs : UInt64) (limit : UInt64)
  | magnitudeLengthMismatch (declaredLimbs : UInt64) (actualBytes : ℕ)
  | trailingBytes (expectedLen actualLen : ℕ)
  | allocationFailed (requestedLimbs : ℕ)
  | notCanonical (cause : ConstructionError)

/-- The part of `decode_canonical_bytes` after the sign octet (L1125-1157). -/
def decodeMagnitude (allocates : ℕ → Bool) (limit : UInt64) (sign : Sign) (rest : List UInt8) :
    Except DecodeError BigInt := do
  refuse (rest.length < 8) (.truncatedLimbCount rest.length)
  let declared := fromLeBytes (rest.take 8)
  let magnitude := rest.drop 8
  refuse (limit < declared) (.declaredLimbsExceedLimit declared limit)
  refuse (magnitude.length ≠ declared.toNat * 8)
    (.magnitudeLengthMismatch declared magnitude.length)
  refuse (!allocates declared.toNat) (.allocationFailed declared.toNat)
  (fromCanonicalLimbs sign (leWords declared.toNat magnitude) limit).mapError .notCanonical

/-- `decode_canonical_bytes` (L1108-1157). -/
def decodeCanonicalBytes (allocates : ℕ → Bool) (bytes : List UInt8) (limit : UInt64) :
    Except DecodeError BigInt :=
  match bytes with
  | [] => .error .empty
  | tag :: rest =>
    if tag = 0 then
      if rest = [] then .ok .zero else .error (.trailingBytes 1 bytes.length)
    else if tag = 1 then decodeMagnitude allocates limit .positive rest
    else if tag = 2 then decodeMagnitude allocates limit .negative rest
    else .error (.unknownSignTag tag)

variable {allocates : ℕ → Bool}

/-- A sign octet is followed by the limb count and the limbs of a value of that sign. -/
theorem decodeMagnitude_iff (sign : Sign) {rest : List UInt8} (hsign : sign ≠ .zero) :
    decodeMagnitude allocates limit sign rest = .ok value ↔
      rest = toLeBytes (.ofNat value.limbs.length) ++ value.limbs.flatMap toLeBytes ∧
        value.limbs ≠ [] ∧ value.limbs.length ≤ limit.toNat ∧
        value.negative = (sign == .negative) ∧ allocates value.limbs.length = true := by
  simp only [decodeMagnitude, refuse_bind_eq_ok, mapError_ok_iff, fromCanonicalLimbs_iff hsign,
    decide_eq_false_iff_not, not_not, Bool.not_eq_false']
  constructor
  · rintro ⟨hcount, -, hlength, hgrant, hne, hlimit, hlimbs, hnegative⟩
    obtain ⟨hwords, hbytes⟩ := flatMap_leWords hlength
    rw [hlimbs, hbytes, hwords]
    refine ⟨?_, hne, hwords ▸ hlimit, hnegative, hgrant⟩
    rw [UInt64.ofNat_toNat, toLeBytes_fromLeBytes (by rw [List.length_take]; omega),
      List.take_append_drop]
  · rintro ⟨rfl, hne, hlimit, hnegative, hgrant⟩
    have hdeclared : (UInt64.ofNat value.limbs.length).toNat = value.limbs.length :=
      UInt64.toNat_ofNat_of_lt' (hlimit.trans_lt limit.toNat_lt)
    have hmagnitude : (value.limbs.flatMap toLeBytes).length = value.limbs.length * 8 := by
      simp [List.length_flatMap]
    rw [List.take_left' (length_toLeBytes _), List.drop_left' (length_toLeBytes _),
      fromLeBytes_toLeBytes, hdeclared, leWords_flatMap, UInt64.lt_iff_toNat_lt, hdeclared]
    exact ⟨by simp, by omega, hmagnitude, hgrant, hne, hlimit, rfl, hnegative⟩

/-- Under every limb limit, decoding inverts encoding on the values within the limit, and every
byte string that is accepted is the encoding of the value returned, which is within the limit. -/
theorem canonical_bytes_inverse (allocates : ℕ → Bool) (limit : UInt64) :
    (∀ value : BigInt, value.limbs.length ≤ limit.toNat →
      (value.limbs ≠ [] → allocates value.limbs.length = true) →
        decodeCanonicalBytes allocates (encodeCanonicalBytes value) limit = .ok value) ∧
      ∀ bytes value, decodeCanonicalBytes allocates bytes limit = .ok value →
        value.limbs.length ≤ limit.toNat ∧ encodeCanonicalBytes value = bytes := by
  constructor
  · intro value hlimit hgrant
    by_cases hempty : value.limbs = []
    · rw [encodeCanonicalBytes, if_pos hempty]
      exact congrArg _ (BigInt.ext (value.zero_sign hempty).symm hempty.symm)
    · rw [encodeCanonicalBytes, if_neg hempty]
      cases hnegative : value.negative with
      | false =>
        exact (decodeMagnitude_iff .positive (by decide)).mpr
          ⟨rfl, hempty, hlimit, hnegative, hgrant hempty⟩
      | true =>
        exact (decodeMagnitude_iff .negative (by decide)).mpr
          ⟨rfl, hempty, hlimit, hnegative, hgrant hempty⟩
  · intro bytes value h
    unfold decodeCanonicalBytes at h
    split at h
    · cases h
    · split_ifs at h with hzero hrest hpositive hnegative
      · cases h
        exact ⟨Nat.zero_le _, by rw [hzero, hrest]; rfl⟩
      · obtain ⟨rfl, hne, hlimit, hsign, -⟩ := (decodeMagnitude_iff .positive (by decide)).mp h
        exact ⟨hlimit, by rw [encodeCanonicalBytes, if_neg hne, hsign, hpositive]; rfl⟩
      · obtain ⟨rfl, hne, hlimit, hsign, -⟩ := (decodeMagnitude_iff .negative (by decide)).mp h
        exact ⟨hlimit, by rw [encodeCanonicalBytes, if_neg hne, hsign, hnegative]; rfl⟩

end FrankenGraph.Bigint

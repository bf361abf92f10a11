import FrankenGraph.Library.Codec
import FrankenGraph.Library.Fallible

/-!
# Commit markers and their canonical bytes

The record half of `crates/fgdb-chronicle/src/marker.rs`: the marker and the errors a chain
can refuse it with (L45-294), its canonical bytes (L160-209) and the decoder that recovery
reads them back with (L703-879).

Results:
* `decodes_readCanonical`: the decoder accepts exactly the inputs that begin with the canonical
  bytes of the marker it returns
* `decodeCanonicalPrefix_eq_some`, `decodeCanonical_eq_some`: the same for the two entry points
-/

namespace FrankenGraph.Chronicle

/-! ## The record -/

/-- `Digest([u8; 32])`. -/
abbrev Digest := List.Vector UInt8 32

/-- `ObjectId([u8; 32])`. -/
abbrev ObjectId := List.Vector UInt8 32

/-- `GraphId(u128)` and `BranchId(u128)`. -/
abbrev GraphId := BitVec 128

@[inherit_doc GraphId]
abbrev BranchId := BitVec 128

/-- `CommitSeq(u64)`. -/
abbrev CommitSeq := BitVec 64

def CommitSeq.origin : CommitSeq := 0

def CommitSeq.first : CommitSeq := 1

/-- `MarkerRef` (fgdb-types, `refs.rs`). -/
structure MarkerRef where
  markerOid : ObjectId
  commitSeq : CommitSeq
deriving DecidableEq

/-- `EffectSource` (L47-53): the local arm, the only one the source has. -/
inductive EffectSource
  | localApply (capsuleRef : ObjectId) (logicalDeltaTemplateDigest : Digest)
deriving DecidableEq

/-- `HeadUpdate` (L79-83). -/
structure HeadUpdate where
  graph : GraphId
  branch : BranchId
  expectedPrevious : Option MarkerRef
deriving DecidableEq

/-- `IdentityCounters` (L116-119). -/
structure IdentityCounters where
  vertex : BitVec 64
  edge : BitVec 64
deriving DecidableEq

/-- `CommitMarker` (L123-148). -/
structure CommitMarker where
  logicalCommandSeq : BitVec 64
  commitSeq : BitVec 64
  effectSource : EffectSource
  prevGlobal : Option MarkerRef
  headUpdates : List HeadUpdate
  mergeRecordOid : Option ObjectId
  coordinateSchemaTransitionDigest : Digest
  topologyEpoch : BitVec 64
  policyEpoch : BitVec 64
  revocationIndex : BitVec 64
  txnToken : List.Vector UInt8 16
  commitHlc : BitVec 64
  finalEffectDigest : Digest
  authorizationDecisionDigest : Digest
  resourceEffectDigest : Digest
  payloadAvailabilityCertificateOid : Option ObjectId
  flags : BitVec 32
  identityCounters : Option IdentityCounters
deriving DecidableEq

/-- `HeadCasMismatch` (L255-260). -/
structure HeadCasMismatch where
  graph : GraphId
  branch : BranchId
  expected : Option MarkerRef
  actual : Option MarkerRef
deriving DecidableEq

/-- `ChainError` (L264-294). -/
inductive ChainError
  | commitSeqExhausted (frontier : CommitSeq)
  | logicalCommandSeqExhausted (frontier : BitVec 64)
  | nonContiguousCommitSeq (expected found : BitVec 64)
  | nonMonotonicCommandSeq (previous found : BitVec 64)
  | headUpdateCountOverflow (count max : ℕ)
  | nonCanonicalHeadUpdates
  | identityCountersFlagMismatch
  | headCasMismatch (mismatch : HeadCasMismatch)
deriving DecidableEq

/-! ## Canonical bytes -/

/-- `MARKER_FLAG_IDENTITY_COUNTERS` (L104). -/
def markerFlagIdentityCounters : BitVec 32 := 1

/-- The flag that says identity counters follow. -/
def carriesCounters (flags : BitVec 32) : Bool :=
  flags &&& markerFlagIdentityCounters != 0

/-- `EffectSource::write_into` (L56-69). -/
def EffectSource.writeInto : EffectSource → List UInt8
  | .localApply capsuleRef digest => 1 :: (capsuleRef.toList ++ digest.toList)

/-- The oid and the sequence of a marker reference. -/
def MarkerRef.bytes (self : MarkerRef) : List UInt8 :=
  self.markerOid.toList ++ wordBytes 8 self.commitSeq

/-- `HeadUpdate::write_into` (L86-97). -/
def HeadUpdate.writeInto (self : HeadUpdate) : List UInt8 :=
  wordBytes 16 self.graph ++ wordBytes 16 self.branch ++
    optionalBytes MarkerRef.bytes self.expectedPrevious

def IdentityCounters.bytes (self : IdentityCounters) : List UInt8 :=
  wordBytes 8 self.vertex ++ wordBytes 8 self.edge

/-- The counters, which have no presence byte: `flags` says whether they are there. -/
def countersBytes : Option IdentityCounters → List UInt8
  | none => []
  | some counters => counters.bytes

/-- `encoded_head_update_count` (L240-246). -/
def encodedHeadUpdateCount (count : ℕ) : Except ChainError (List UInt8) :=
  if count < 2 ^ 32 then .ok (bigEndian 4 count)
  else .error (.headUpdateCountOverflow count (2 ^ 32 - 1))

/-- The fields in the order they are written, given the encoded number of head updates. -/
def CommitMarker.layout (self : CommitMarker) (count : List UInt8) : List UInt8 :=
  wordBytes 8 self.logicalCommandSeq ++ (wordBytes 8 self.commitSeq ++
    (self.effectSource.writeInto ++ (optionalBytes MarkerRef.bytes self.prevGlobal ++
    (count ++ (self.headUpdates.flatMap HeadUpdate.writeInto ++
    (optionalBytes List.Vector.toList self.mergeRecordOid ++
    (self.coordinateSchemaTransitionDigest.toList ++ (wordBytes 8 self.topologyEpoch ++
    (wordBytes 8 self.policyEpoch ++ (wordBytes 8 self.revocationIndex ++
    (self.txnToken.toList ++ (wordBytes 8 self.commitHlc ++
    (self.finalEffectDigest.toList ++ (self.authorizationDecisionDigest.toList ++
    (self.resourceEffectDigest.toList ++
    (optionalBytes List.Vector.toList self.payloadAvailabilityCertificateOid ++
    (wordBytes 4 self.flags ++ countersBytes self.identityCounters)))))))))))))))))

/-- `canonical_bytes` (L160-209). -/
def CommitMarker.canonicalBytes (self : CommitMarker) : Except ChainError (List UInt8) := do
  refuse (carriesCounters self.flags != self.identityCounters.isSome)
    .identityCountersFlagMismatch
  let count ← encodedHeadUpdateCount self.headUpdates.length
  return self.layout count

/-! ## Decoding -/

/-- `ByteReader::u32` (L833-836). -/
def u32 : Reader (BitVec 32) := word 4 32

/-- `ByteReader::u64` (L838-843). -/
def u64 : Reader (BitVec 64) := word 8 64

/-- `ByteReader::u128` (L845-850). -/
def u128 : Reader (BitVec 128) := word 16 128

/-- The local arm of an effect source. An unknown tag is refused. -/
def effectSource : Reader EffectSource := do
  match ← byte with
  | 1 =>
    let capsuleRef ← take 32
    let digest ← take 32
    return .localApply capsuleRef digest
  | _ => failure

def markerRef : Reader MarkerRef := do
  let markerOid ← take 32
  let commitSeq ← u64
  return { markerOid, commitSeq }

def headUpdate : Reader HeadUpdate := do
  let graph ← u128
  let branch ← u128
  let expectedPrevious ← optional markerRef
  return { graph, branch, expectedPrevious }

def readCounters (flags : BitVec 32) : Reader (Option IdentityCounters) :=
  if carriesCounters flags then do
    let vertex ← u64
    let edge ← u64
    return some { vertex, edge }
  else
    return none

/-- `decode_canonical_prefix` (L723-804), with the unread bytes in place of the position. -/
def readCanonical : Reader CommitMarker := do
  let logicalCommandSeq ← u64
  let commitSeq ← u64
  let effectSource ← effectSource
  let prevGlobal ← optional markerRef
  let headCount ← u32
  let headUpdates ← repeated headUpdate headCount.toNat
  let mergeRecordOid ← optional (take 32)
  let coordinateSchemaTransitionDigest ← take 32
  let topologyEpoch ← u64
  let policyEpoch ← u64
  let revocationIndex ← u64
  let txnToken ← take 16
  let commitHlc ← u64
  let finalEffectDigest ← take 32
  let authorizationDecisionDigest ← take 32
  let resourceEffectDigest ← take 32
  let payloadAvailabilityCertificateOid ← optional (take 32)
  let flags ← u32
  let identityCounters ← readCounters flags
  return { logicalCommandSeq, commitSeq, effectSource, prevGlobal, headUpdates, mergeRecordOid,
           coordinateSchemaTransitionDigest, topologyEpoch, policyEpoch, revocationIndex,
           txnToken, commitHlc, finalEffectDigest, authorizationDecisionDigest,
           resourceEffectDigest, payloadAvailabilityCertificateOid, flags, identityCounters }

/-- `decode_canonical_prefix`: the marker and the number of bytes it occupies. -/
def decodeCanonicalPrefix (bytes : List UInt8) : Option (CommitMarker × ℕ) := do
  let (marker, rest) ← readCanonical bytes
  return (marker, bytes.length - rest.length)

/-- `decode_canonical` (L712-715). -/
def decodeCanonical (bytes : List UInt8) : Option CommitMarker := do
  let (marker, consumed) ← decodeCanonicalPrefix bytes
  if consumed = bytes.length then some marker else none

theorem reads_u32 : Reads u32 (wordBytes 4) := reads_word (by decide)

theorem reads_u64 : Reads u64 (wordBytes 8) := reads_word (by decide)

theorem reads_u128 : Reads u128 (wordBytes 16) := reads_word (by decide)

theorem reads_effectSource : Reads effectSource EffectSource.writeInto := by
  intro input source rest
  unfold effectSource
  rw [reads_byte.bind_iff]
  constructor
  · rintro ⟨tag, middle, rfl, hnext⟩
    split at hnext
    · simp only [(reads_take 32).bind_iff, pure_eq_some] at hnext
      obtain ⟨capsuleRef, _, rfl, digest, _, rfl, rfl, rfl⟩ := hnext
      simp [EffectSource.writeInto]
    · exact absurd hnext (by simp [failure, StateT.failure])
  · rintro rfl
    cases source with
    | localApply capsuleRef digest =>
      refine ⟨1, capsuleRef.toList ++ (digest.toList ++ rest), by simp [EffectSource.writeInto], ?_⟩
      simp only [(reads_take 32).bind_iff, pure_eq_some]
      exact ⟨capsuleRef, _, rfl, digest, rest, rfl, rfl, rfl⟩

theorem reads_markerRef : Reads markerRef MarkerRef.bytes := by
  intro input ref rest
  simp only [markerRef, (reads_take 32).bind_iff, reads_u64.bind_iff, pure_eq_some]
  constructor
  · rintro ⟨oid, _, rfl, seq, _, rfl, rfl, rfl⟩
    simp [MarkerRef.bytes]
  · rintro rfl
    refine ⟨ref.markerOid, wordBytes 8 ref.commitSeq ++ rest, ?_, ref.commitSeq, rest, rfl, rfl,
      rfl⟩
    simp only [MarkerRef.bytes, List.append_assoc]

theorem reads_headUpdate : Reads headUpdate HeadUpdate.writeInto := by
  intro input update rest
  simp only [headUpdate, reads_u128.bind_iff, reads_markerRef.optional.bind_iff, pure_eq_some]
  constructor
  · rintro ⟨graph, _, rfl, branch, _, rfl, previous, _, rfl, rfl, rfl⟩
    simp [HeadUpdate.writeInto]
  · rintro rfl
    refine ⟨update.graph, wordBytes 16 update.branch ++
      (optionalBytes MarkerRef.bytes update.expectedPrevious ++ rest), ?_, update.branch,
      optionalBytes MarkerRef.bytes update.expectedPrevious ++ rest, rfl, update.expectedPrevious,
      rest, rfl, rfl, rfl⟩
    simp only [HeadUpdate.writeInto, List.append_assoc]

theorem decodes_readCounters (flags : BitVec 32) :
    Decodes (readCounters flags) (fun counters bytes =>
      carriesCounters flags = counters.isSome ∧ bytes = countersBytes counters) := by
  intro input counters rest
  unfold readCounters
  by_cases hflags : carriesCounters flags = true
  · rw [if_pos hflags]
    simp only [reads_u64.bind_iff, pure_eq_some, hflags]
    constructor
    · rintro ⟨vertex, _, rfl, edge, _, rfl, rfl, rfl⟩
      exact ⟨_, ⟨rfl, rfl⟩, by simp [countersBytes, IdentityCounters.bytes]⟩
    · rintro ⟨bytes, ⟨hsome, rfl⟩, rfl⟩
      obtain ⟨counters, rfl⟩ := Option.isSome_iff_exists.mp hsome.symm
      refine ⟨counters.vertex, wordBytes 8 counters.edge ++ rest, ?_, counters.edge, rest, rfl,
        rfl, rfl⟩
      simp only [countersBytes, IdentityCounters.bytes, List.append_assoc]
  · rw [if_neg hflags]
    simp only [pure_eq_some, Bool.not_eq_true] at hflags ⊢
    rw [hflags]
    constructor
    · rintro ⟨rfl, rfl⟩
      exact ⟨[], ⟨rfl, rfl⟩, rfl⟩
    · rintro ⟨bytes, ⟨hnone, rfl⟩, rfl⟩
      rw [eq_comm, Option.isSome_eq_false_iff, Option.isNone_iff_eq_none] at hnone
      subst hnone
      exact ⟨rfl, rfl⟩

theorem wordBytes_ofNat_eq {count : ℕ} (h : count < 2 ^ 32) :
    wordBytes 4 (BitVec.ofNat 32 count) = bigEndian 4 count := by
  rw [wordBytes, BitVec.toNat_ofNat, Nat.mod_eq_of_lt h]

variable {marker : CommitMarker} {bytes : List UInt8}

theorem canonicalBytes_eq_ok : marker.canonicalBytes = .ok bytes ↔
      carriesCounters marker.flags = marker.identityCounters.isSome ∧
      marker.headUpdates.length < 2 ^ 32 ∧
      bytes = marker.layout (wordBytes 4 (BitVec.ofNat 32 marker.headUpdates.length)) := by
  simp only [CommitMarker.canonicalBytes, encodedHeadUpdateCount, bind_eq_ok, refuse_eq_ok,
    bne_eq_false_iff_eq]
  constructor
  · rintro ⟨_, hflags, count, hcount, hbytes⟩
    by_cases hlt : marker.headUpdates.length < 2 ^ 32
    · rw [if_pos hlt] at hcount
      rw [wordBytes_ofNat_eq hlt, Except.ok.inj hcount]
      exact ⟨hflags, hlt, (Except.ok.inj hbytes).symm⟩
    · rw [if_neg hlt] at hcount
      cases hcount
  · rintro ⟨hflags, hlt, rfl⟩
    refine ⟨(), hflags, bigEndian 4 marker.headUpdates.length, if_pos hlt, ?_⟩
    rw [wordBytes_ofNat_eq hlt]
    rfl

theorem decodes_readCanonical :
    Decodes readCanonical (fun marker bytes => marker.canonicalBytes = .ok bytes) := by
  intro input marker rest
  unfold readCanonical
  simp only [canonicalBytes_eq_ok, CommitMarker.layout]
  constructor
  · intro h
    obtain ⟨_, _, rfl, h₁⟩ := reads_u64.bind_iff.mp h
    obtain ⟨_, _, rfl, h₂⟩ := reads_u64.bind_iff.mp h₁
    obtain ⟨_, _, rfl, h₃⟩ := reads_effectSource.bind_iff.mp h₂
    obtain ⟨_, _, rfl, h₄⟩ := reads_markerRef.optional.bind_iff.mp h₃
    obtain ⟨count, _, rfl, h₅⟩ := reads_u32.bind_iff.mp h₄
    obtain ⟨heads, _, hheads, h₆⟩ := bind_eq_some.mp h₅
    obtain ⟨_, ⟨hlen, rfl⟩, rfl⟩ := (reads_headUpdate.repeated _ _ _ _).mp hheads
    obtain ⟨_, _, rfl, h₇⟩ := (reads_take 32).optional.bind_iff.mp h₆
    obtain ⟨_, _, rfl, h₈⟩ := (reads_take 32).bind_iff.mp h₇
    obtain ⟨_, _, rfl, h₉⟩ := reads_u64.bind_iff.mp h₈
    obtain ⟨_, _, rfl, h₁₀⟩ := reads_u64.bind_iff.mp h₉
    obtain ⟨_, _, rfl, h₁₁⟩ := reads_u64.bind_iff.mp h₁₀
    obtain ⟨_, _, rfl, h₁₂⟩ := (reads_take 16).bind_iff.mp h₁₁
    obtain ⟨_, _, rfl, h₁₃⟩ := reads_u64.bind_iff.mp h₁₂
    obtain ⟨_, _, rfl, h₁₄⟩ := (reads_take 32).bind_iff.mp h₁₃
    obtain ⟨_, _, rfl, h₁₅⟩ := (reads_take 32).bind_iff.mp h₁₄
    obtain ⟨_, _, rfl, h₁₆⟩ := (reads_take 32).bind_iff.mp h₁₅
    obtain ⟨_, _, rfl, h₁₇⟩ := (reads_take 32).optional.bind_iff.mp h₁₆
    obtain ⟨flags, _, rfl, h₁₈⟩ := reads_u32.bind_iff.mp h₁₇
    obtain ⟨counters, _, hcounters, h₁₉⟩ := bind_eq_some.mp h₁₈
    obtain ⟨_, ⟨hflags, rfl⟩, rfl⟩ := (decodes_readCounters _ _ _ _).mp hcounters
    obtain ⟨rfl, rfl⟩ := pure_eq_some.mp h₁₉
    have hcount : BitVec.ofNat 32 heads.length = count := by
      rw [hlen, BitVec.ofNat_toNat, BitVec.setWidth_eq]
    refine ⟨_, ⟨hflags, hlen ▸ count.isLt, rfl⟩, ?_⟩
    simp only [hcount, List.append_assoc]
  · rintro ⟨_, ⟨hflags, hlt, rfl⟩, rfl⟩
    simp only [List.append_assoc]
    refine reads_u64.bind_iff.mpr ⟨_, _, rfl, ?_⟩
    refine reads_u64.bind_iff.mpr ⟨_, _, rfl, ?_⟩
    refine reads_effectSource.bind_iff.mpr ⟨_, _, rfl, ?_⟩
    refine reads_markerRef.optional.bind_iff.mpr ⟨_, _, rfl, ?_⟩
    refine reads_u32.bind_iff.mpr ⟨_, _, rfl, ?_⟩
    refine bind_eq_some.mpr ⟨_, _, (reads_headUpdate.repeated _ _ _ _).mpr ⟨_, ⟨?_, rfl⟩, rfl⟩, ?_⟩
    · rw [BitVec.toNat_ofNat, Nat.mod_eq_of_lt hlt]
    refine (reads_take 32).optional.bind_iff.mpr ⟨_, _, rfl, ?_⟩
    refine (reads_take 32).bind_iff.mpr ⟨_, _, rfl, ?_⟩
    refine reads_u64.bind_iff.mpr ⟨_, _, rfl, ?_⟩
    refine reads_u64.bind_iff.mpr ⟨_, _, rfl, ?_⟩
    refine reads_u64.bind_iff.mpr ⟨_, _, rfl, ?_⟩
    refine (reads_take 16).bind_iff.mpr ⟨_, _, rfl, ?_⟩
    refine reads_u64.bind_iff.mpr ⟨_, _, rfl, ?_⟩
    refine (reads_take 32).bind_iff.mpr ⟨_, _, rfl, ?_⟩
    refine (reads_take 32).bind_iff.mpr ⟨_, _, rfl, ?_⟩
    refine (reads_take 32).bind_iff.mpr ⟨_, _, rfl, ?_⟩
    refine (reads_take 32).optional.bind_iff.mpr ⟨_, _, rfl, ?_⟩
    refine reads_u32.bind_iff.mpr ⟨_, _, rfl, ?_⟩
    refine bind_eq_some.mpr ⟨_, _, (decodes_readCounters _ _ _ _).mpr ⟨_, ⟨hflags, rfl⟩, rfl⟩, ?_⟩
    exact pure_eq_some.mpr ⟨rfl, rfl⟩

theorem decodeCanonicalPrefix_eq_some {consumed : ℕ} :
    decodeCanonicalPrefix bytes = some (marker, consumed) ↔
      ∃ body rest, marker.canonicalBytes = .ok body ∧ bytes = body ++ rest ∧
        consumed = body.length := by
  simp only [decodeCanonicalPrefix, bind, Option.bind_eq_some_iff, pure, Option.some.injEq,
    Prod.mk.injEq, Prod.exists, decodes_readCanonical _ _ _]
  constructor
  · rintro ⟨_, rest, ⟨body, hbody, rfl⟩, rfl, rfl⟩
    exact ⟨body, rest, hbody, rfl, by simp⟩
  · rintro ⟨body, rest, hbody, rfl, rfl⟩
    exact ⟨marker, rest, ⟨body, hbody, rfl⟩, rfl, by simp⟩

theorem decodeCanonical_eq_some :
    decodeCanonical bytes = some marker ↔ marker.canonicalBytes = .ok bytes := by
  simp only [decodeCanonical, bind, Option.bind_eq_some_iff, Prod.exists,
    decodeCanonicalPrefix_eq_some]
  constructor
  · rintro ⟨_, _, ⟨body, rest, hbody, rfl, rfl⟩, hif⟩
    by_cases hlen : body.length = (body ++ rest).length
    · rw [if_pos hlen] at hif
      have hrest : rest = [] := by simpa using hlen
      subst hrest
      simpa [← Option.some.inj hif] using hbody
    · rw [if_neg hlen] at hif
      cases hif
  · intro hbody
    exact ⟨marker, bytes.length, ⟨bytes, [], hbody, by simp, rfl⟩, by simp⟩

end FrankenGraph.Chronicle

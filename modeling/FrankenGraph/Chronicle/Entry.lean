import FrankenGraph.Chronicle.Chain

/-!
# Commit-log entries

The entry framing of `crates/fgdb-chronicle/src/commit.rs` (L79-101, 228-276, 436-450,
1267-1289 and 1464-1571): how one marker is framed in the log, and how recovery tells a complete
entry from missing bytes and from wrong ones.

Results:
* `decodeEntry_eq_ok`: a decoded entry is the frame of its marker, in front of whatever follows
* `decodeEntry_truncated`: the bytes that are called a torn tail
* `readsAsTorn_of_append`: every proper beginning of a written frame is one of them
* `readNextEntry_eq`: reading from the file decodes the bytes that remain in it
-/

namespace FrankenGraph.Chronicle

open List Except

/-! ## Errors -/

/-- `ValidationRejection` (`validate.rs` L70-77). -/
structure ValidationRejection where
  law : String
  detail : String
deriving DecidableEq

/-- `CommitError` (L244-293). The cause of a capsule failure is left out: sealing is a
parameter of the coordinator. -/
inductive CommitError
  | io (message : String)
  | chain (error : ChainError)
  | capsuleRefMismatch (capsuleOid markerCapsuleRef : ObjectId)
  | markerTooLarge (bodyLen maxBodyLen : ℕ)
  | capsulePathConflict (capsuleOid : ObjectId)
  | corruptLogEntry (commitSeq : BitVec 64)
  | chainDiverged (commitSeq : BitVec 64)
  | capsule
  | rejected (rejection : ValidationRejection)
  | writerAlreadyOpen
  | poisoned
deriving DecidableEq

/-- `EntryDefect` (L443-448). -/
inductive EntryDefect
  | truncated
  | corrupt
deriving DecidableEq

/-! ## Framing -/

/-- `ENTRY_MAGIC` (L83): `FGC3`. -/
def entryMagic : List UInt8 := [70, 71, 67, 51]

/-- `ENTRY_TRAILER_MAGIC` (L86): `FGE3`. -/
def entryTrailerMagic : List UInt8 := [70, 71, 69, 51]

/-- `ENTRY_HEADER_BYTES` (L88). -/
def entryHeaderBytes : ℕ := 8

/-- `CHAIN_HASH_BYTES` (L89). -/
def chainHashBytes : ℕ := 32

/-- `ENTRY_TRAILER_BYTES` (L90). -/
def entryTrailerBytes : ℕ := 8

/-- `MAX_ENTRY_BODY` (L100). -/
def maxEntryBody : ℕ := 64 * 1024

/-- The length of an entry whose body has `bodyLen` bytes. -/
def entryTotal (bodyLen : ℕ) : ℕ :=
  entryHeaderBytes + bodyLen + chainHashBytes + entryTrailerBytes

/-- The bytes of an entry: magic, length, body, chain hash, length again, trailer magic. -/
def frame (body : List UInt8) (chainHash : Digest) : List UInt8 :=
  entryMagic ++ (bigEndian 4 body.length ++ (body ++ (chainHash.toList ++
    (bigEndian 4 body.length ++ entryTrailerMagic))))

/-- `encode_entry` (L1267-1289). -/
def encodeEntry (marker : CommitMarker) (chainHash : Digest) :
    Except CommitError (List UInt8) := do
  let body ← marker.canonicalBytes.mapError .chain
  refuse (body.length > maxEntryBody) (.markerTooLarge body.length maxEntryBody)
  refuse (body.length ≥ 2 ^ 32) (.markerTooLarge body.length maxEntryBody)
  return frame body chainHash

/-- The big-endian length field at `offset`. -/
def lengthAt (bytes : List UInt8) (offset : ℕ) : ℕ :=
  ofBigEndian ((bytes.drop offset).take 4)

/-- `has_complete_intrinsic_entry_extent` (L1556-1571). -/
def hasCompleteIntrinsicEntryExtent (bytes : List UInt8) : Bool :=
  match decodeCanonicalPrefix (bytes.drop entryHeaderBytes) with
  | none => false
  | some (_, intrinsicBodyLen) =>
    intrinsicBodyLen ≤ maxEntryBody && entryTotal intrinsicBodyLen ≤ bytes.length

/-- `decode_entry` (L1514-1552). -/
def decodeEntry (bytes : List UInt8) : Except EntryDefect (CommitMarker × Digest × ℕ) := do
  refuse (entryMagic.length ≤ bytes.length && bytes.take entryMagic.length != entryMagic) .corrupt
  refuse (bytes.length < entryHeaderBytes) .truncated
  let bodyLen := lengthAt bytes 4
  refuse (bodyLen > maxEntryBody) .corrupt
  if h : bytes.length < entryTotal bodyLen then
    -- a whole marker with its suffix is there, so the length is damaged and nothing is missing
    if hasCompleteIntrinsicEntryExtent bytes then .error .corrupt else .error .truncated
  else
    let bodyEnd := entryHeaderBytes + bodyLen
    match decodeCanonical ((bytes.drop entryHeaderBytes).take bodyLen) with
    | none => .error .corrupt
    | some marker =>
      let chainEnd := bodyEnd + chainHashBytes
      let chainHash : Digest := ⟨(bytes.drop bodyEnd).take chainHashBytes, by
        simp only [entryTotal, entryHeaderBytes, chainHashBytes, entryTrailerBytes] at h
        simp only [bodyEnd, entryHeaderBytes, chainHashBytes, List.length_take, List.length_drop]
        omega⟩
      refuse (lengthAt bytes chainEnd != bodyLen ||
        (bytes.drop (chainEnd + 4)).take 4 != entryTrailerMagic) .corrupt
      return (marker, chainHash, entryTotal bodyLen)

/-- The bytes recovery takes for an interrupted append: the magic is missing or intact, and the
declared length, if it is there and possible, runs past the end of what is not a whole marker. -/
def ReadsAsTorn (bytes : List UInt8) : Prop :=
  bytes.length < 4 ∨ bytes.take 4 = entryMagic ∧ (bytes.length < 8 ∨
    lengthAt bytes 4 ≤ maxEntryBody ∧ bytes.length < entryTotal (lengthAt bytes 4) ∧
      hasCompleteIntrinsicEntryExtent bytes = false)

instance (bytes : List UInt8) : Decidable (ReadsAsTorn bytes) := by
  unfold ReadsAsTorn
  infer_instance

@[simp]
theorem length_frame (body : List UInt8) (chainHash : Digest) :
    (frame body chainHash).length = entryTotal body.length := by
  simp only [frame, entryMagic, entryTrailerMagic, entryTotal, entryHeaderBytes, chainHashBytes,
    entryTrailerBytes, length_append, length_cons, length_nil, length_bigEndian,
    List.Vector.toList_length]
  omega

theorem entryTotal_eq (bodyLen : ℕ) : entryTotal bodyLen = bodyLen + 48 := by
  simp only [entryTotal, entryHeaderBytes, chainHashBytes, entryTrailerBytes]
  omega

variable {marker : CommitMarker} {chainHash : Digest}

theorem encodeEntry_eq_ok {entry : List UInt8} : encodeEntry marker chainHash = .ok entry ↔
      ∃ body, marker.canonicalBytes = .ok body ∧ body.length ≤ maxEntryBody ∧
        entry = frame body chainHash := by
  simp only [encodeEntry, bind_eq_ok, refuse_eq_ok, mapError_ok_iff, decide_eq_false_iff_not,
    not_lt, ge_iff_le, not_le]
  constructor
  · rintro ⟨body, hbody, _, hmax, _, _, hentry⟩
    exact ⟨body, hbody, hmax, (ok.inj hentry).symm⟩
  · rintro ⟨body, hbody, hmax, rfl⟩
    refine ⟨body, hbody, (), hmax, (), lt_of_le_of_lt hmax (by decide), rfl⟩

/-! ## Complete entries -/

theorem drop_eq_take_append (bytes : List UInt8) (offset count : ℕ) :
    bytes.drop offset = (bytes.drop offset).take count ++ bytes.drop (offset + count) := by
  rw [← drop_drop, take_append_drop]

variable {bytes : List UInt8}

/-- A length field is the encoding of the length it denotes. -/
theorem bigEndian_lengthAt {offset : ℕ} (h : offset + 4 ≤ bytes.length) :
    bigEndian 4 (lengthAt bytes offset) = (bytes.drop offset).take 4 := by
  have hlen : ((bytes.drop offset).take 4).length = 4 := by
    rw [length_take, length_drop]
    omega
  have hbytes := bigEndian_ofBigEndian ((bytes.drop offset).take 4)
  rw [hlen] at hbytes
  exact hbytes

theorem ofBigEndian_length {count : ℕ} (h : count ≤ maxEntryBody) :
    ofBigEndian (bigEndian 4 count) = count := by
  rw [ofBigEndian_bigEndian, Nat.mod_eq_of_lt (lt_of_le_of_lt h (by decide))]

/-- The four pieces of a written entry that `decodeEntry` looks at. -/
theorem frame_pieces (body : List UInt8) (chainHash : Digest) (rest : List UInt8)
    (h : body.length ≤ maxEntryBody) :
    lengthAt (frame body chainHash ++ rest) 4 = body.length ∧
    ((frame body chainHash ++ rest).drop 8).take body.length = body ∧
    ((frame body chainHash ++ rest).drop (8 + body.length)).take 32 = chainHash.toList ∧
    lengthAt (frame body chainHash ++ rest) (8 + body.length + 32) = body.length ∧
    ((frame body chainHash ++ rest).drop (8 + body.length + 32 + 4)).take 4 =
      entryTrailerMagic := by
  obtain ⟨chainHash, hhash⟩ := chainHash
  have hsplit : frame body ⟨chainHash, hhash⟩ ++ rest = entryMagic ++ (bigEndian 4 body.length ++
      (body ++ (chainHash ++ (bigEndian 4 body.length ++ (entryTrailerMagic ++ rest))))) := by
    simp [frame]
  have h₄ : (frame body ⟨chainHash, hhash⟩ ++ rest).drop 4 = bigEndian 4 body.length ++
      (body ++ (chainHash ++ (bigEndian 4 body.length ++ (entryTrailerMagic ++ rest)))) := by
    rw [hsplit]
    rfl
  have h₈ : (frame body ⟨chainHash, hhash⟩ ++ rest).drop 8 = body ++ (chainHash ++
      (bigEndian 4 body.length ++ (entryTrailerMagic ++ rest))) := by
    rw [show 8 = 4 + 4 from rfl, ← drop_drop, h₄, drop_left' (length_bigEndian 4 _)]
  have hchain : (frame body ⟨chainHash, hhash⟩ ++ rest).drop (8 + body.length) = chainHash ++
      (bigEndian 4 body.length ++ (entryTrailerMagic ++ rest)) := by
    rw [← drop_drop, h₈, drop_left]
  have hdup : (frame body ⟨chainHash, hhash⟩ ++ rest).drop (8 + body.length + 32) =
      bigEndian 4 body.length ++ (entryTrailerMagic ++ rest) := by
    rw [← drop_drop, hchain, drop_left' hhash]
  have htrailer : (frame body ⟨chainHash, hhash⟩ ++ rest).drop (8 + body.length + 32 + 4) =
      entryTrailerMagic ++ rest := by
    rw [← drop_drop, hdup, drop_left' (length_bigEndian 4 _)]
  refine ⟨?_, ?_, ?_, ?_, ?_⟩
  · rw [lengthAt, h₄, take_left' (length_bigEndian 4 _), ofBigEndian_length h]
  · rw [h₈, take_left]
  · rw [hchain, take_left' hhash]
    rfl
  · rw [lengthAt, hdup, take_left' (length_bigEndian 4 _), ofBigEndian_length h]
  · rw [htrailer]
    rfl

/-- Bytes with the pieces of a written entry in their places begin with that entry. -/
theorem eq_frame_of_pieces (chainHash : Digest) (hmagic : bytes.take 4 = entryMagic)
    (htotal : lengthAt bytes 4 + 48 ≤ bytes.length)
    (hchain : (bytes.drop (8 + lengthAt bytes 4)).take 32 = chainHash.toList)
    (hdup : lengthAt bytes (8 + lengthAt bytes 4 + 32) = lengthAt bytes 4)
    (htrailer : (bytes.drop (8 + lengthAt bytes 4 + 32 + 4)).take 4 = entryTrailerMagic) :
    bytes = frame ((bytes.drop 8).take (lengthAt bytes 4)) chainHash ++
      bytes.drop (8 + lengthAt bytes 4 + 32 + 4 + 4) := by
  have hbodyLen : ((bytes.drop 8).take (lengthAt bytes 4)).length = lengthAt bytes 4 := by
    rw [length_take, length_drop]
    omega
  have hstart : bytes = entryMagic ++ bytes.drop 4 := by
    rw [← hmagic, take_append_drop]
  have hlength : bytes.drop 4 = bigEndian 4 (lengthAt bytes 4) ++ bytes.drop 8 := by
    rw [bigEndian_lengthAt (by omega)]
    exact drop_eq_take_append bytes 4 4
  have hbody := drop_eq_take_append bytes 8 (lengthAt bytes 4)
  have hhash := drop_eq_take_append bytes (8 + lengthAt bytes 4) 32
  have hagain : bytes.drop (8 + lengthAt bytes 4 + 32) =
      bigEndian 4 (lengthAt bytes 4) ++ bytes.drop (8 + lengthAt bytes 4 + 32 + 4) := by
    rw [← hdup, bigEndian_lengthAt (by omega), hdup]
    exact drop_eq_take_append bytes (8 + lengthAt bytes 4 + 32) 4
  have hend := drop_eq_take_append bytes (8 + lengthAt bytes 4 + 32 + 4) 4
  rw [hchain] at hhash
  rw [htrailer] at hend
  rw [frame, hbodyLen]
  simp only [append_assoc]
  rw [← hend, ← hagain, ← hhash, ← hbody, ← hlength, ← hstart]

/-- A written entry decodes to its marker, whatever follows it. -/
theorem decodeEntry_frame {body : List UInt8} (chainHash : Digest) (rest : List UInt8)
    (hbody : marker.canonicalBytes = .ok body) (hmax : body.length ≤ maxEntryBody) :
    decodeEntry (frame body chainHash ++ rest) =
      .ok (marker, chainHash, entryTotal body.length) := by
  obtain ⟨hlen, htake, hchain, hdup, htrailer⟩ := frame_pieces body chainHash rest hmax
  have hmagic : (frame body chainHash ++ rest).take entryMagic.length = entryMagic := rfl
  have htotal : entryTotal body.length ≤ (frame body chainHash ++ rest).length := by
    rw [length_append, length_frame]
    omega
  have hheader : ¬ (frame body chainHash ++ rest).length < entryHeaderBytes := by
    rw [entryTotal_eq] at htotal
    show ¬ _ < 8
    omega
  unfold decodeEntry
  simp only [hmagic, hlen, hheader, refuse, bne_self_eq_false, Bool.and_false, decide_false,
    Bool.false_eq_true, if_false, bind, bind]
  rw [if_neg (by simpa using hmax), dif_neg (by omega)]
  simp only [entryHeaderBytes, chainHashBytes, htake, decodeCanonical_eq_some.mpr hbody, hchain,
    hdup, htrailer, bne_self_eq_false, Bool.or_self, Bool.false_eq_true, if_false]
  rfl

theorem decodeEntry_eq_ok {consumed : ℕ} : decodeEntry bytes = .ok (marker, chainHash, consumed) ↔
      ∃ body rest, marker.canonicalBytes = .ok body ∧ body.length ≤ maxEntryBody ∧
        bytes = frame body chainHash ++ rest ∧ consumed = entryTotal body.length := by
  constructor
  · intro h
    simp only [decodeEntry, bind_eq_ok, refuse_eq_ok, decide_eq_false_iff_not, not_lt,
      Bool.and_eq_false_iff, bne_eq_false_iff_eq, not_le] at h
    obtain ⟨_, hmagic, _, hheader, _, hmax, h⟩ := h
    by_cases hshort : bytes.length < entryTotal (lengthAt bytes 4)
    · rw [dif_pos hshort] at h
      split at h <;> cases h
    rw [dif_neg hshort] at h
    cases hdecode : decodeCanonical
        ((bytes.drop entryHeaderBytes).take (lengthAt bytes 4)) with
    | none => simp [hdecode] at h
    | some marker' =>
      simp only [hdecode, bind_eq_ok, refuse_eq_ok, Bool.or_eq_false_iff, bne_eq_false_iff_eq] at h
      obtain ⟨_, ⟨hdup, htrailer⟩, hresult⟩ := h
      obtain ⟨rfl, hrest⟩ := Prod.mk.inj (ok.inj hresult)
      obtain ⟨hchain, rfl⟩ := Prod.mk.inj hrest
      have htotal : lengthAt bytes 4 + 48 ≤ bytes.length := by
        rw [entryTotal_eq] at hshort
        omega
      have hbodyLen : ((bytes.drop 8).take (lengthAt bytes 4)).length = lengthAt bytes 4 := by
        rw [length_take, length_drop]
        omega
      refine ⟨(bytes.drop 8).take (lengthAt bytes 4), bytes.drop (8 + lengthAt bytes 4 + 32 + 4 + 4),
        decodeCanonical_eq_some.mp hdecode, by rw [hbodyLen]; exact hmax, ?_, by rw [hbodyLen]⟩
      have hmagic : bytes.take 4 = entryMagic := by
        rcases hmagic with hlt | heq
        · exact absurd hlt (by show ¬ _ < 4; omega)
        · exact heq
      exact eq_frame_of_pieces chainHash hmagic htotal (congrArg List.Vector.toList hchain) hdup
        htrailer
  · rintro ⟨body, rest, hbody, hmax, rfl, rfl⟩
    exact decodeEntry_frame chainHash rest hbody hmax

/-! ## Torn tails -/

/-- What is called truncated, rather than corrupt or complete. -/
theorem decodeEntry_truncated : decodeEntry bytes = .error .truncated ↔ ReadsAsTorn bytes := by
  have hfour : entryMagic.length = 4 := rfl
  have height : entryHeaderBytes = 8 := rfl
  simp only [decodeEntry, ReadsAsTorn, hfour, height]
  by_cases hmagicLen : bytes.length < 4
  · simp [refuse, bind, Except.bind, Nat.not_le.mpr hmagicLen, show bytes.length < 8 by omega,
      hmagicLen]
  by_cases hmagic : bytes.take 4 = entryMagic
  swap
  · simp [refuse, bind, Except.bind, Nat.not_lt.mp hmagicLen, hmagic, hmagicLen]
  by_cases hheader : bytes.length < 8
  · simp [refuse, bind, Except.bind, hmagic, hheader]
  by_cases hmax : maxEntryBody < lengthAt bytes 4
  · simp [refuse, bind, Except.bind, hmagic, hmagicLen, hheader, hmax]
  simp only [hmagic, hheader, hmax, hmagicLen, refuse, bne_self_eq_false, Bool.and_false,
    decide_false, Bool.false_eq_true, if_false, bind, Except.bind, false_or, true_and,
    Nat.not_lt.mp hmax]
  by_cases hshort : bytes.length < entryTotal (lengthAt bytes 4)
  · rw [dif_pos hshort]
    cases hasCompleteIntrinsicEntryExtent bytes <;> simp [hshort]
  · rw [dif_neg hshort]
    simp only [hshort, false_and, iff_false]
    split
    · simp
    · split
      · rename_i herror
        split at herror <;> cases herror
        simp
      · simp [pure, Except.pure]

theorem lengthAt_append_left {front : List UInt8} (back : List UInt8) {offset : ℕ}
    (h : offset + 4 ≤ front.length) : lengthAt (front ++ back) offset = lengthAt front offset := by
  rw [lengthAt, lengthAt, drop_append_of_le_length (by omega),
    take_append_of_le_length (by rw [length_drop]; omega)]

/-- Every proper beginning of a written entry is taken for an interrupted append: the body cannot
be read from fewer bytes than it has, so no cut looks like a damaged length. -/
theorem readsAsTorn_of_append {body front back : List UInt8}
    (hbody : marker.canonicalBytes = .ok body) (hmax : body.length ≤ maxEntryBody)
    (hframe : frame body chainHash = front ++ back) (hback : back ≠ []) : ReadsAsTorn front := by
  have hpieces := frame_pieces body chainHash [] hmax
  rw [append_nil, hframe] at hpieces
  have hlength : front.length < entryTotal body.length := by
    have hlen := congrArg length hframe
    rw [length_frame, length_append] at hlen
    have hpos := length_pos_iff.mpr hback
    omega
  by_cases hmagicLen : front.length < 4
  · exact .inl hmagicLen
  have hmagic : front.take 4 = entryMagic := by
    have htake : (front ++ back).take 4 = entryMagic := by rw [← hframe]; rfl
    rw [← htake, take_append_of_le_length (by omega)]
  by_cases hheader : front.length < 8
  · exact .inr ⟨hmagic, .inl hheader⟩
  have hlengthAt : lengthAt front 4 = body.length := by
    rw [← lengthAt_append_left back (by omega), hpieces.1]
  refine .inr ⟨hmagic, .inr ⟨by omega, by rw [hlengthAt]; exact hlength, ?_⟩⟩
  unfold hasCompleteIntrinsicEntryExtent
  cases hdecode : decodeCanonicalPrefix (front.drop entryHeaderBytes) with
  | none => rfl
  | some decoded =>
    obtain ⟨marker', consumed⟩ := decoded
    obtain ⟨body', rest, hbody', hdrop, rfl⟩ := decodeCanonicalPrefix_eq_some.mp hdecode
    -- both bodies start at the same byte of the written frame, so they are the same body
    have hafter : (front ++ back).drop 8 = body ++ (front ++ back).drop (8 + body.length) := by
      rw [drop_eq_take_append _ 8 body.length, hpieces.2.1]
    rw [drop_append_of_le_length (by omega), show front.drop 8 = body' ++ rest from hdrop,
      append_assoc] at hafter
    obtain ⟨-, rfl, -⟩ := decodes_readCanonical.unique hbody' hbody hafter
    simp [Nat.not_le.mpr hlength]

/-! ## Reading from the file -/

/-- `read_until_len` (L1495-1511): the buffer, what remains, and whether the target was
reached. The chunked reads of the source add up to one. -/
def readUntilLen (reader entry : List UInt8) (targetLen : ℕ) : List UInt8 × List UInt8 × Bool :=
  let wanted := targetLen - entry.length
  (entry ++ reader.take wanted, reader.drop wanted, decide (wanted ≤ reader.length))

/-- `read_next_entry` (L1464-1490): the decoded entry, the buffer and what remains. -/
def readNextEntry (reader : List UInt8) :
    Option (Except EntryDefect (CommitMarker × Digest × ℕ)) × List UInt8 × List UInt8 :=
  let (entry, rest, complete) := readUntilLen reader [] entryHeaderBytes
  if complete = false then
    if entry = [] then (none, entry, rest) else (some (decodeEntry entry), entry, rest)
  else if entry.take entryMagic.length ≠ entryMagic then
    (some (.error .corrupt), entry, rest)
  else if lengthAt entry 4 > maxEntryBody then
    (some (.error .corrupt), entry, rest)
  else
    let (entry', rest', _) := readUntilLen rest entry (entryTotal (lengthAt entry 4))
    (some (decodeEntry entry'), entry', rest')

theorem decodeEntry_ne_truncated (h : 8 ≤ bytes.length)
    (htotal : entryTotal (lengthAt bytes 4) ≤ bytes.length) :
    decodeEntry bytes ≠ .error .truncated := by
  rw [Ne, decodeEntry_truncated]
  rintro (hlt | ⟨-, hlt | ⟨-, hlt, -⟩⟩) <;> omega

theorem decodeEntry_corrupt (h : 8 ≤ bytes.length)
    (hbad : bytes.take 4 ≠ entryMagic ∨ maxEntryBody < lengthAt bytes 4) :
    decodeEntry bytes = .error .corrupt := by
  have hfour : entryMagic.length = 4 := rfl
  have height : entryHeaderBytes = 8 := rfl
  simp only [decodeEntry, hfour, height]
  by_cases hmagic : bytes.take 4 = entryMagic
  · have hmax := hbad.resolve_left (not_not.mpr hmagic)
    simp [refuse, bind, Except.bind, hmagic, Nat.not_lt.mpr h, hmax]
  · simp [refuse, bind, Except.bind, hmagic, show 4 ≤ bytes.length by omega]

/-- An entry's verdict depends on no byte after its declared end. -/
theorem decodeEntry_take (h : 8 ≤ bytes.length) :
    decodeEntry (bytes.take (entryTotal (lengthAt bytes 4))) = decodeEntry bytes := by
  by_cases htotal : bytes.length ≤ entryTotal (lengthAt bytes 4)
  · rw [take_of_length_le htotal]
  have hsplit := take_append_drop (entryTotal (lengthAt bytes 4)) bytes
  have hlen : (bytes.take (entryTotal (lengthAt bytes 4))).length =
      entryTotal (lengthAt bytes 4) := by
    rw [length_take]
    omega
  generalize hfront : bytes.take (entryTotal (lengthAt bytes 4)) = front at hsplit hlen ⊢
  generalize bytes.drop (entryTotal (lengthAt bytes 4)) = back at hsplit
  subst hsplit
  rw [entryTotal_eq] at hlen htotal
  rw [lengthAt_append_left back (by omega)] at hlen
  -- neither is truncated, and both are complete in the same way or corrupt
  have hfrontTorn : decodeEntry front ≠ .error .truncated :=
    decodeEntry_ne_truncated (by omega) (by rw [entryTotal_eq]; omega)
  have hwholeTorn : decodeEntry (front ++ back) ≠ .error .truncated :=
    decodeEntry_ne_truncated h (by rw [entryTotal_eq]; omega)
  have hok : ∀ result, decodeEntry front = .ok result ↔ decodeEntry (front ++ back) = .ok result := by
    rintro ⟨marker, chainHash, consumed⟩
    simp only [decodeEntry_eq_ok]
    constructor
    · rintro ⟨body, rest, hbody, hmax, hbytes, hconsumed⟩
      exact ⟨body, rest ++ back, hbody, hmax, by rw [hbytes, append_assoc], hconsumed⟩
    · rintro ⟨body, rest, hbody, hmax, hbytes, hconsumed⟩
      have hlenAt : lengthAt front 4 = body.length := by
        rw [← lengthAt_append_left back (by omega), hbytes, (frame_pieces body chainHash rest hmax).1]
      have hfrontLen : front.length = (frame body chainHash).length := by
        rw [hlen, hlenAt, length_frame, entryTotal_eq]
      obtain ⟨rfl, -⟩ := append_inj hbytes hfrontLen
      exact ⟨body, [], hbody, hmax, by simp, hconsumed⟩
  cases hfrontResult : decodeEntry front with
  | ok result => rw [(hok result).mp hfrontResult]
  | error defect =>
    cases hwhole : decodeEntry (front ++ back) with
    | ok result =>
      rw [(hok result).mpr hwhole] at hfrontResult
      cases hfrontResult
    | error defect' => cases defect <;> cases defect' <;> simp_all

/-- Reading at a position decodes the bytes from there on. A torn tail is read to the end, and a
complete entry leaves exactly what follows it. -/
theorem readNextEntry_eq (reader : List UInt8) :
    readNextEntry reader = (none, [], []) ∧ reader = [] ∨
    reader ≠ [] ∧ ∃ entry rest, readNextEntry reader = (some (decodeEntry reader), entry, rest) ∧
      (decodeEntry reader = .error .truncated → entry = reader ∧ rest = []) ∧
      (∀ marker chainHash consumed, decodeEntry reader = .ok (marker, chainHash, consumed) →
        entry = reader.take consumed ∧ rest = reader.drop consumed) := by
  by_cases hnil : reader = []
  · subst hnil
    exact .inl ⟨rfl, rfl⟩
  refine .inr ⟨hnil, ?_⟩
  unfold readNextEntry readUntilLen
  simp only [nil_append, length_nil, Nat.sub_zero]
  by_cases hheader : entryHeaderBytes ≤ reader.length
  swap
  · -- a partial header is all that remains
    have htake : reader.take entryHeaderBytes = reader := take_of_length_le (by omega)
    have hdrop : reader.drop entryHeaderBytes = [] := drop_eq_nil_of_le (by omega)
    simp only [hheader, decide_false, htake, hdrop, if_true, if_neg hnil]
    refine ⟨reader, [], rfl, fun _ => ⟨rfl, rfl⟩, fun marker chainHash consumed hok => ?_⟩
    obtain ⟨body, rest, -, -, hbytes, -⟩ := decodeEntry_eq_ok.mp hok
    have hlen := congrArg length hbytes
    rw [length_append, length_frame, entryTotal_eq] at hlen
    exact absurd hheader (by show ¬ ¬ 8 ≤ _; omega)
  have height : entryHeaderBytes = 8 := rfl
  rw [height] at hheader
  have hlen : (reader.take 8).length = 8 := by
    rw [length_take]
    omega
  have hfield : lengthAt (reader.take 8) 4 = lengthAt reader 4 := by
    rw [← lengthAt_append_left (reader.drop 8) (by omega), take_append_drop]
  have hmagicTake : (reader.take 8).take entryMagic.length = reader.take 4 := by
    rw [take_take]
    rfl
  simp only [height, hheader, decide_true, Bool.true_eq_false, if_false, hfield, hmagicTake, hlen]
  by_cases hbad : reader.take 4 ≠ entryMagic ∨ maxEntryBody < lengthAt reader 4
  · have hcorrupt := decodeEntry_corrupt hheader hbad
    refine ⟨reader.take 8, reader.drop 8, ?_, by simp [hcorrupt], by simp [hcorrupt]⟩
    rcases hbad with hmagic | hmax
    · rw [if_pos hmagic, hcorrupt]
    · rw [if_pos hmax, ite_self, hcorrupt]
  · rw [not_or, not_not, Nat.not_lt] at hbad
    rw [if_neg (not_not.mpr hbad.1), if_neg (Nat.not_lt.mpr hbad.2)]
    have hjoin : reader.take 8 ++ (reader.drop 8).take (entryTotal (lengthAt reader 4) - 8) =
        reader.take (entryTotal (lengthAt reader 4)) := by
      rw [← take_add, entryTotal_eq]
      congr 1
      omega
    have hrest : (reader.drop 8).drop (entryTotal (lengthAt reader 4) - 8) =
        reader.drop (entryTotal (lengthAt reader 4)) := by
      rw [drop_drop, entryTotal_eq]
      congr 1
      omega
    rw [hjoin, hrest, decodeEntry_take hheader]
    refine ⟨_, _, rfl, fun htorn => ?_, fun marker chainHash consumed hok => ?_⟩
    · rcases decodeEntry_truncated.mp htorn with hlt | ⟨-, hlt | ⟨-, hlt, -⟩⟩
      · omega
      · omega
      · exact ⟨take_of_length_le hlt.le, drop_eq_nil_of_le hlt.le⟩
    · obtain ⟨body, rest, hbody, hmax, hbytes, rfl⟩ := decodeEntry_eq_ok.mp hok
      rw [hbytes, (frame_pieces body chainHash rest hmax).1]
      exact ⟨rfl, rfl⟩

end FrankenGraph.Chronicle

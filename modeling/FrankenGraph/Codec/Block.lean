import Mathlib

/-!
# The block codec

`crates/fgdb-codec/src/block.rs`: profiles (L161-219), the greedy compressor
(L434-545), its match table (L547-620) and the decompressor (L627-734), with the
helpers both use (L736-816).

A `usize` has 64 bits. A slice or an index out of range and a subtraction below zero would panic in
the source; here they make the function return `none`, as does a loop that does not end within its
fuel. An allocation is granted or
refused by a parameter.
-/

namespace FrankenGraph.Codec

/-- `usize::MAX`. -/
def usizeMax : ℕ := 2 ^ 64 - 1

/-- `EMPTY_POSITION` (L69). -/
def emptyPosition : ℕ := usizeMax

/-- `max_encoded_len` (L434-437). -/
def maxEncodedLen (inputLen : ℕ) : Option ℕ :=
  let bound := inputLen + (inputLen + 127) / 128
  if bound ≤ usizeMax then some bound else none

/-! ## Profiles -/

/-- `enum ProfileError` (L79-120). -/
inductive ProfileError
  | windowTooSmall (actual minimum : ℕ)
  | windowTooLarge (actual maximum : ℕ)
  | hashTableTooSmall (actual minimum : ℕ)
  | hashTableTooLarge (actual maximum : ℕ)
  | hashTableNotPowerOfTwo (actual : ℕ)
  | blockLimitTooLarge (maxBlockLen : ℕ)
deriving DecidableEq

/-- `struct CodecProfile` (L161-166). The proofs are the checks of its only constructor. -/
structure CodecProfile where
  windowSize : ℕ
  hashTableEntries : ℕ
  maxBlockLen : ℕ
  maxEncodedBound : ℕ
  window_le : 1 ≤ windowSize ∧ windowSize ≤ 65535
  entries_le : 256 ≤ hashTableEntries ∧ hashTableEntries ≤ 2 ^ 20
  entries_pow : hashTableEntries = 2 ^ hashTableEntries.log2
  bound_eq : maxEncodedLen maxBlockLen = some maxEncodedBound

/-- `CodecProfile::try_new` (L175-218). -/
def CodecProfile.tryNew (windowSize hashTableEntries maxBlockLen : ℕ) :
    Except ProfileError CodecProfile :=
  if hsmall : windowSize < 1 then .error (.windowTooSmall windowSize 1)
  else if hlarge : 65535 < windowSize then .error (.windowTooLarge windowSize 65535)
  else if hfew : hashTableEntries < 256 then .error (.hashTableTooSmall hashTableEntries 256)
  else if hmany : 2 ^ 20 < hashTableEntries then
    .error (.hashTableTooLarge hashTableEntries (2 ^ 20))
  else if hpow : hashTableEntries = 2 ^ hashTableEntries.log2 then
    match hbound : maxEncodedLen maxBlockLen with
    | none => .error (.blockLimitTooLarge maxBlockLen)
    | some maxEncodedBound =>
      .ok { windowSize, hashTableEntries, maxBlockLen, maxEncodedBound
            window_le := ⟨Nat.le_of_not_lt hsmall, Nat.le_of_not_lt hlarge⟩
            entries_le := ⟨Nat.le_of_not_lt hfew, Nat.le_of_not_lt hmany⟩
            entries_pow := hpow
            bound_eq := hbound }
  else .error (.hashTableNotPowerOfTwo hashTableEntries)

/-! ## The match table -/

/-- `enum MatchTable` (L547-550). -/
inductive MatchTable
  | dense (positions : List ℕ)
  | sparse (entries : List ℕ)
deriving DecidableEq

/-- `append_sparse_node` (L615-620). -/
def appendSparseNode (nodes : List ℕ) : ℕ × List ℕ :=
  (nodes.length, nodes ++ List.replicate 16 emptyPosition)

/-- One level of the sparse table: the node a slot points to, appended when it is missing
(L589-593 and 598-603). -/
def sparseChild (entries : List ℕ) (slot : ℕ) : Option (ℕ × List ℕ) := do
  let offset ← entries[slot]?
  if offset = emptyPosition then
    let (offset, entries) := appendSparseNode entries
    some (offset, entries.set slot offset)
  else some (offset, entries)

/-- `MatchTable::replace` (L579-612). -/
def MatchTable.replace : MatchTable → ℕ → ℕ → Option (ℕ × MatchTable)
  | .dense positions, bucket, position => do
    let previous ← positions[bucket]?
    some (previous, .dense (positions.set bucket position))
  | .sparse entries, bucket, position => do
    let (node, entries) ← sparseChild entries (bucket / 4096)
    let (node, entries) ← sparseChild entries (node + bucket / 256 % 16)
    let (node, entries) ← sparseChild entries (node + bucket / 16 % 16)
    let leaf := node + bucket % 16
    let previous ← entries[leaf]?
    some (previous, .sparse (entries.set leaf position))

/-- The dense table of L573-576. -/
def MatchTable.newDense (logicalEntries : ℕ) : MatchTable :=
  .dense (List.replicate logicalEntries emptyPosition)

/-- The sparse table of L567-570. -/
def MatchTable.newSparse : MatchTable := .sparse (List.replicate 256 emptyPosition)

/-- The entries a sparse table reserves for an input, when representable (L562-565). -/
def sparseEntries (inputLen : ℕ) : Option ℕ :=
  let requested := (inputLen - 3) * 48 + 256
  if requested ≤ usizeMax then some requested else none

/-! ## Compression -/

/-- `enum CompressionAllocation` (L241-246). -/
inductive CompressionAllocation
  | encodedOutput
  | hashTable
deriving DecidableEq

/-- `enum CompressionError` (L250-265). -/
inductive CompressionError
  | inputLimitExceeded (actual limit : ℕ)
  | allocationFailed (target : CompressionAllocation) (requested : ℕ)
deriving DecidableEq

/-- `trait Reservation` (L452-464): the requests that are granted. -/
abbrev Reservation := CompressionAllocation → ℕ → Bool

/-- `MatchTable::with_reservation` (L553-577). -/
def MatchTable.withReservation (inputLen logicalEntries : ℕ) (reservation : Reservation) :
    Except CompressionError MatchTable :=
  match (sparseEntries inputLen).filter fun entries => decide (entries < logicalEntries) with
  | some requested =>
    if reservation .hashTable requested then .ok .newSparse
    else .error (.allocationFailed .hashTable requested)
  | none =>
    if reservation .hashTable logicalEntries then .ok (.newDense logicalEntries)
    else .error (.allocationFailed .hashTable logicalEntries)

/-- `hash_bucket` (L763-776). -/
def hashBucket (input : List UInt8) (cursor entries : ℕ) : Option ℕ :=
  match input.drop cursor with
  | a :: b :: c :: d :: _ =>
    let word := a.toNat + 256 * b.toNat + 65536 * c.toNat + 16777216 * d.toNat
    some (word * 0x1e35a7bd % 2 ^ 32 / 2 ^ (32 - entries.log2))
  | _ => none

/-- The number of leading equal bytes, at most `maximum`. -/
def commonLength : ℕ → List UInt8 → List UInt8 → ℕ
  | maximum + 1, a :: as, b :: bs => if a = b then commonLength maximum as bs + 1 else 0
  | _, _, _ => 0

/-- `candidate_match_length` (L778-800). -/
def candidateMatchLength (input : List UInt8) (cursor candidate windowSize : ℕ) : Option ℕ :=
  if candidate = emptyPosition then some 0
  else if cursor < candidate then none
  else if windowSize < cursor - candidate then some 0
  else
    some (commonLength (min 131 (input.length - cursor)) (input.drop candidate) (input.drop cursor))

/-- The tokens of `emit_literals` (L802-809); each pass takes a byte at least. -/
def literalTokens : ℕ → List UInt8 → List UInt8
  | 0, _ => []
  | fuel + 1, literals =>
    if literals = [] then []
    else
      UInt8.ofNat ((literals.take 128).length - 1) ::
        (literals.take 128 ++ literalTokens fuel (literals.drop 128))

/-- `emit_literals`. -/
def emitLiterals (output literals : List UInt8) : List UInt8 :=
  output ++ literalTokens literals.length literals

/-- `emit_copy` (L811-816). -/
def emitCopy (output : List UInt8) (distance copyLen : ℕ) : List UInt8 :=
  output ++ [0x80 ||| UInt8.ofNat (copyLen - 4), UInt8.ofNat distance, UInt8.ofNat (distance / 256)]

/-- `&input[start..stop]`. -/
def slice (input : List UInt8) (start stop : ℕ) : Option (List UInt8) :=
  if start ≤ stop ∧ stop ≤ input.length then some ((input.take stop).drop start) else none

section

variable {T : Type}

/-- The loop of `compress_with_reservation` and its last literals (L525-541) over any table.
Every pass moves the cursor. -/
def compressLoop (replace : T → ℕ → ℕ → Option (ℕ × T)) (input : List UInt8)
    (windowSize entries : ℕ) : ℕ → ℕ → ℕ → List UInt8 → T → Option (List UInt8)
  | 0, _, _, _, _ => none
  | fuel + 1, cursor, literalStart, output, table =>
    if input.length < cursor then none
    else if 4 ≤ input.length - cursor then do
      let bucket ← hashBucket input cursor entries
      let (candidate, table) ← replace table bucket cursor
      let matchLength ← candidateMatchLength input cursor candidate windowSize
      if 4 ≤ matchLength then do
        let literals ← slice input literalStart cursor
        let output := emitCopy (emitLiterals output literals) (cursor - candidate) matchLength
        compressLoop replace input windowSize entries fuel (cursor + matchLength)
          (cursor + matchLength) output table
      else compressLoop replace input windowSize entries fuel (cursor + 1) literalStart output table
    else do
      let literals ← slice input literalStart input.length
      some (emitLiterals output literals)

end

/-- The compressed bytes of an input of at least four bytes with a given table. -/
def compressWith (table : MatchTable) (input : List UInt8) (profile : CodecProfile) :
    Option (List UInt8) :=
  compressLoop MatchTable.replace input profile.windowSize profile.hashTableEntries
    (input.length + 1) 0 0 [] table

/-- `compress_with_reservation` (L496-545). -/
def compress (input : List UInt8) (profile : CodecProfile) (reservation : Reservation) :
    Option (Except CompressionError (List UInt8)) :=
  if profile.maxBlockLen < input.length then
    some (.error (.inputLimitExceeded input.length profile.maxBlockLen))
  else
    let encodedBound := (maxEncodedLen input.length).getD profile.maxEncodedBound
    if !reservation .encodedOutput encodedBound then
      some (.error (.allocationFailed .encodedOutput encodedBound))
    else if input.length < 4 then some (.ok (emitLiterals [] input))
    else
      match MatchTable.withReservation input.length profile.hashTableEntries reservation with
      | .error error => some (.error error)
      | .ok table => (compressWith table input profile).map .ok

/-! ## Decompression -/

/-- `enum DecodeErrorKind` (L304-353). -/
inductive DecodeErrorKind
  | outputLimitExceeded (expected limit : ℕ)
  | allocationFailed (requested : ℕ)
  | truncatedToken
  | truncatedLiteral (declared available : ℕ)
  | truncatedCopy (available : ℕ)
  | outputOvershoot (expected attempted : ℕ)
  | zeroDistance
  | distanceTooFar (distance produced : ℕ)
  | trailingBytes (trailing : ℕ)
deriving DecidableEq

/-- `struct DecodeError` (L357-360). -/
structure DecodeError where
  offset : ℕ
  kind : DecodeErrorKind
deriving DecidableEq

/-- `checked_decoded_end` (L736-761). -/
def checkedDecodedEnd (produced additional expected tokenOffset : ℕ) : Except DecodeError ℕ :=
  if usizeMax < produced + additional then
    .error ⟨tokenOffset, .outputOvershoot expected usizeMax⟩
  else if expected < produced + additional then
    .error ⟨tokenOffset, .outputOvershoot expected (produced + additional)⟩
  else .ok (produced + additional)

/-- The loop that copies bytes from behind the end of the output (L716-720). -/
def copyBack (distance : ℕ) : ℕ → List UInt8 → Option (List UInt8)
  | 0, output => some output
  | count + 1, output =>
    if output.length < distance then none
    else do
      let byte ← output[output.length - distance]?
      copyBack distance count (output ++ [byte])

/-- The body of the token loop (L656-721) at `cursor`: the cursor and the output after the
token. -/
def decodeToken (input : List UInt8) (expected cursor : ℕ) (output : List UInt8) :
    Option (Except DecodeError (ℕ × List UInt8)) :=
  match input[cursor]? with
  | none => some (.error ⟨cursor, .truncatedToken⟩)
  | some tag =>
    if tag &&& 0x80 = 0 then
      let literalLen := tag.toNat + 1
      let available := input.length - (cursor + 1)
      if available < literalLen then
        some (.error ⟨cursor, .truncatedLiteral literalLen available⟩)
      else
        match checkedDecodedEnd output.length literalLen expected cursor with
        | .error error => some (.error error)
        | .ok _ => do
          let literals ← slice input (cursor + 1) (cursor + 1 + literalLen)
          some (.ok (cursor + 1 + literalLen, output ++ literals))
    else
      let available := input.length - (cursor + 1)
      if available < 2 then some (.error ⟨cursor, .truncatedCopy available⟩)
      else do
        let copyLen := (tag &&& 0x7f).toNat + 4
        let low ← input[cursor + 1]?
        let high ← input[cursor + 2]?
        let distance := low.toNat + 256 * high.toNat
        if distance = 0 then some (.error ⟨cursor, .zeroDistance⟩)
        else if output.length < distance then
          some (.error ⟨cursor, .distanceTooFar distance output.length⟩)
        else
          match checkedDecodedEnd output.length copyLen expected cursor with
          | .error error => some (.error error)
          | .ok outputEnd => do
            let output ← copyBack distance (outputEnd - output.length) output
            some (.ok (cursor + 3, output))

/-- The token loop and the check for trailing bytes (L654-733). -/
def decodeLoop (input : List UInt8) (expected : ℕ) :
    ℕ → ℕ → List UInt8 → Option (Except DecodeError (List UInt8))
  | 0, _, _ => none
  | fuel + 1, cursor, output =>
    if output.length < expected then do
      match ← decodeToken input expected cursor output with
      | .error error => some (.error error)
      | .ok (cursor, output) => decodeLoop input expected fuel cursor output
    else if input.length < cursor then none
    else if cursor ≠ input.length then
      some (.error ⟨cursor, .trailingBytes (input.length - cursor)⟩)
    else some (.ok output)

/-- `decompress` (L627-734); `granted` says whether the output is reserved. -/
def decompress (input : List UInt8) (expectedDecodedLen outputLimit : ℕ) (granted : Bool) :
    Option (Except DecodeError (List UInt8)) :=
  if outputLimit < expectedDecodedLen then
    some (.error ⟨0, .outputLimitExceeded expectedDecodedLen outputLimit⟩)
  else if !granted then some (.error ⟨0, .allocationFailed expectedDecodedLen⟩)
  else decodeLoop input expectedDecodedLen (expectedDecodedLen + 1) 0 []

end FrankenGraph.Codec

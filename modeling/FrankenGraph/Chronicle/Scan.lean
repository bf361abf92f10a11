import FrankenGraph.Chronicle.Entry

/-!
# Scanning the commit log

The recovery scan of `crates/fgdb-chronicle/src/commit.rs` (L136-203, 571-602 and
1291-1457): the two collectors, the loop over the entries of the log and the repair of its tail. The
scanned file does not change under the scan, as it cannot under the writer lease.

`writeFrames` is the writer's side: what appending markers one after the other, as `commit` does,
makes of a chain and adds to the log.

Results:
* `scanEntries_eq_ok`: the scan accepts exactly the logs that are frames the writer would have
  written, followed by nothing or by what reads as a torn entry
* `scanEntries_writeFrames`: it reads written frames back
* `scanChainInto_agree`: both collectors accept the same files, with the same result
-/

namespace FrankenGraph.Chronicle

/-! ## Collectors -/

/-- `ScanCollector` (L138-142). -/
structure ScanCollector (σ : Type) where
  chainValue : σ → Digest
  nextCommitSeq : σ → Except ChainError CommitSeq
  appendMarker : σ → CommitMarker → Except ChainError σ

/-- `PrefixScan` (L158-162). -/
structure PrefixScan where
  scanned : MarkerPrefix
  requested : CommitSeq
  commitment : Option Digest
deriving DecidableEq

/-- `CommitScanSummary` (L107-113). -/
structure CommitScanSummary where
  frontier : CommitSeq
  chainValue : Digest
  requested : CommitSeq
  commitment : Option Digest
deriving DecidableEq

/-- `PrefixScan::new` (L165-171). -/
def PrefixScan.new (requested : CommitSeq) : PrefixScan where
  scanned := .new
  requested := requested
  commitment := if requested = CommitSeq.origin then some chainOrigin else none

/-- `PrefixScan::finish` (L173-180). -/
def PrefixScan.finish (self : PrefixScan) : CommitScanSummary where
  frontier := self.scanned.frontierSeq
  chainValue := self.scanned.chainValue
  requested := self.requested
  commitment := self.commitment

/-- `MarkerChain`'s sequence frontier: that of its last entry, or the origin. -/
def MarkerChain.frontierSeq (self : MarkerChain) : CommitSeq :=
  (MarkerPrefix.ofChain self).frontierSeq

variable (hash : List UInt8 → Digest)

/-- `impl ScanCollector for MarkerChain` (L144-156). -/
def chainCollector : ScanCollector MarkerChain where
  chainValue := MarkerChain.chainValue
  nextCommitSeq := MarkerChain.nextCommitSeq
  appendMarker := MarkerChain.append hash

/-- The append of `impl ScanCollector for PrefixScan` (L192-198). -/
def PrefixScan.appendMarker (self : PrefixScan) (marker : CommitMarker) :
    Except ChainError PrefixScan := do
  let scanned ← self.scanned.append hash marker
  return { self with
           scanned
           commitment := if scanned.frontierSeq = self.requested then some scanned.chainValue
             else self.commitment }

/-- `impl ScanCollector for PrefixScan` (L183-199). -/
def prefixCollector : ScanCollector PrefixScan where
  chainValue self := self.scanned.chainValue
  nextCommitSeq self := self.scanned.nextCommitSeq
  appendMarker := PrefixScan.appendMarker hash

/-! ## The scan -/

section

variable {σ : Type} (collector : ScanCollector σ)

/-- What the loop does with a decoded entry (L1373-1388). -/
def admitEntry (chain : σ) (marker : CommitMarker) (storedChainHash : Digest) :
    Except CommitError σ := do
  let expected ← (marker.chainHash hash (collector.chainValue chain)).mapError
    fun _ => .corruptLogEntry marker.commitSeq
  refuse (expected != storedChainHash) (.chainDiverged marker.commitSeq)
  (collector.appendMarker chain marker).mapError fun _ => .corruptLogEntry marker.commitSeq

/-- The error for an entry that is complete but wrong (L1367-1371). -/
def corruptEntry (chain : σ) : CommitError :=
  match collector.nextCommitSeq chain with
  | .ok seq => .corruptLogEntry seq
  | .error error => .chain error

/-- The loop of `scan_chain_into` (L1357-1395): the collected chain, the length of the entries
in it and the last buffer. -/
def scanEntries (reader : List UInt8) (chain : σ) (cursor : ℕ) :
    Except CommitError (σ × ℕ × List UInt8) :=
  match _hread : readNextEntry reader with
  | (none, entry, _) => .ok (chain, cursor, entry)
  | (some (.error .truncated), entry, _) => .ok (chain, cursor, entry)
  | (some (.error .corrupt), _, _) => .error (corruptEntry collector chain)
  | (some (.ok (marker, storedChainHash, consumed)), _, rest) =>
    match admitEntry hash collector chain marker storedChainHash with
    | .error error => .error error
    | .ok chain => scanEntries rest chain (cursor + consumed)
termination_by reader.length
decreasing_by
  rcases readNextEntry_eq reader with ⟨hnone, -⟩ | ⟨-, entry', rest', hread, -, hok⟩
  · rw [_hread] at hnone
    cases hnone
  · rw [_hread] at hread
    obtain ⟨hdecode, hrest⟩ := Prod.mk.inj hread
    obtain ⟨body, tail, -, -, rfl, rfl⟩ := decodeEntry_eq_ok.mp (Option.some.inj hdecode).symm
    rw [(Prod.mk.inj hrest).2, (hok _ _ _ (Option.some.inj hdecode).symm).2, List.length_drop,
      List.length_append, length_frame, entryTotal_eq]
    omega

/-- `scan_chain_into` (L1324-1457) on the content of the log, if there is a log: the chain, the
number of discarded bytes and the content after the repair. -/
def scanChainInto (file : Option (List UInt8)) (repairTail : Bool) (chain : σ) :
    Except CommitError (σ × ℕ × Option (List UInt8)) :=
  match file with
  | none => .ok (chain, 0, none)
  | some bytes => do
    let (chain, validLen, entry) ← scanEntries hash collector bytes chain 0
    refuse (validLen + entry.length != bytes.length)
      (.io "commit log ended before its captured extent")
    let discarded := bytes.length - validLen
    return (chain, discarded,
      some (if repairTail && discarded != 0 then bytes.take validLen else bytes))

end

/-- `recover_chain` (L1312-1322): the chain, the discarded bytes and the repaired log. -/
def recoverChain (file : Option (List UInt8)) (repairTail : Bool) :
    Except CommitError (MarkerChain × ℕ × Option (List UInt8)) :=
  scanChainInto hash (chainCollector hash) file repairTail .new

/-- `scan_committed_chain` (L569-577). -/
def scanCommittedChain (file : Option (List UInt8)) : Except CommitError MarkerChain := do
  let (chain, _, _) ← recoverChain hash file false
  return chain

/-- `scan_committed_prefix` (L592-601). -/
def scanCommittedPrefix (file : Option (List UInt8)) (requested : CommitSeq) :
    Except CommitError CommitScanSummary := do
  let (scan, _, _) ← scanChainInto hash (prefixCollector hash) file false (.new requested)
  return scan.finish

/-! ## Writing -/

/-- The log and chain part of one commit: the marker is validated and framed, its entry is appended
to the log, and then the chain adopts it. -/
def writeFrame (chain : MarkerChain) (marker : CommitMarker) :
    Except CommitError (MarkerChain × List UInt8) := do
  let chained ← (chain.validate hash marker).mapError .chain
  let entry ← encodeEntry marker chained.chainHash
  let chain ← (chain.adopt chained).mapError .chain
  return (chain, entry)

/-- Markers written one after the other: the chain they lead to and the bytes they add. -/
def writeFrames (chain : MarkerChain) : List CommitMarker →
    Except CommitError (MarkerChain × List UInt8)
  | [] => .ok (chain, [])
  | marker :: markers => do
    let (chain, entry) ← writeFrame hash chain marker
    let (chain, log) ← writeFrames chain markers
    return (chain, entry ++ log)

variable {hash}

variable {chain chain' : MarkerChain} {marker : CommitMarker} {entry : List UInt8}

theorem writeFrame_eq_ok :
    writeFrame hash chain marker = .ok (chain', entry) ↔
      ∃ chained, chain.validate hash marker = .ok chained ∧
        encodeEntry marker chained.chainHash = .ok entry ∧ chain.adopt chained = .ok chain' := by
  simp only [writeFrame, bind_eq_ok, mapError_ok_iff]
  constructor
  · rintro ⟨chained, hvalid, entry', hentry, chain'', hadopt, hresult⟩
    obtain ⟨rfl, rfl⟩ := Prod.mk.inj (Except.ok.inj hresult)
    exact ⟨chained, hvalid, hentry, hadopt⟩
  · rintro ⟨chained, hvalid, hentry, hadopt⟩
    exact ⟨chained, hvalid, entry, hentry, chain', hadopt, rfl⟩

variable {markers : List CommitMarker} {log : List UInt8}

theorem writeFrames_cons :
    writeFrames hash chain (marker :: markers) = .ok (chain', log) ↔
      ∃ middle entry rest, writeFrame hash chain marker = .ok (middle, entry) ∧
        writeFrames hash middle markers = .ok (chain', rest) ∧ log = entry ++ rest := by
  simp only [writeFrames, bind_eq_ok, Prod.exists]
  constructor
  · rintro ⟨middle, entry, hframe, chain'', rest, hrest, hresult⟩
    obtain ⟨rfl, rfl⟩ := Prod.mk.inj (Except.ok.inj hresult)
    exact ⟨middle, entry, rest, hframe, hrest, rfl⟩
  · rintro ⟨middle, entry, rest, hframe, hrest, rfl⟩
    exact ⟨middle, entry, hframe, chain', rest, hrest, rfl⟩

/-- Writing more markers adds their frames behind the earlier ones. -/
theorem writeFrames_append {markers' : List CommitMarker} :
    writeFrames hash chain (markers ++ markers') = .ok (chain', log) ↔
      ∃ middle front back, writeFrames hash chain markers = .ok (middle, front) ∧
        writeFrames hash middle markers' = .ok (chain', back) ∧ log = front ++ back := by
  induction markers generalizing chain log with
  | nil =>
    constructor
    · intro h
      exact ⟨chain, [], log, rfl, h, rfl⟩
    · rintro ⟨middle, front, back, hfront, hback, rfl⟩
      obtain ⟨rfl, rfl⟩ := Prod.mk.inj (Except.ok.inj hfront)
      exact hback
  | cons marker markers ih =>
    rw [List.cons_append, writeFrames_cons]
    constructor
    · rintro ⟨next, entry, rest, hframe, hrest, rfl⟩
      obtain ⟨middle, front, back, hfront, hback, rfl⟩ := ih.mp hrest
      exact ⟨middle, entry ++ front, back, writeFrames_cons.mpr ⟨_, _, _, hframe, hfront, rfl⟩,
        hback, by simp⟩
    · rintro ⟨middle, front, back, hfront, hback, rfl⟩
      obtain ⟨next, entry, rest, hframe, hrest, rfl⟩ := writeFrames_cons.mp hfront
      exact ⟨next, entry, rest ++ back, hframe, ih.mpr ⟨middle, rest, back, hrest, hback, rfl⟩,
        by simp⟩

theorem writeFrames_singleton :
    writeFrames hash chain [marker] = .ok (chain', entry) ↔
      writeFrame hash chain marker = .ok (chain', entry) := by
  rw [writeFrames_cons]
  constructor
  · rintro ⟨middle, entry', rest, hframe, hrest, rfl⟩
    obtain ⟨rfl, rfl⟩ := Prod.mk.inj (Except.ok.inj hrest)
    rw [List.append_nil]
    exact hframe
  · intro h
    exact ⟨chain', entry, [], h, rfl, (List.append_nil entry).symm⟩

/-- A written marker becomes the chain's last entry. -/
theorem entries_of_writeFrame (h : writeFrame hash chain marker = .ok (chain', entry)) :
    ∃ chained, chain.validate hash marker = .ok chained ∧ chained.marker = marker ∧
      chain'.entries = chain.entries ++ [chained] := by
  obtain ⟨chained, hvalid, -, hadopt⟩ := writeFrame_eq_ok.mp h
  obtain ⟨heads, hadopt'⟩ := MarkerChain.adopt_of_validate hvalid
  rw [hadopt'] at hadopt
  obtain rfl := Except.ok.inj hadopt
  exact ⟨chained, hvalid, (MarkerChain.validate_eq_ok hvalid).1, rfl⟩

theorem markers_of_writeFrames (h : writeFrames hash chain markers = .ok (chain', log)) :
    chain'.entries.map ChainedMarker.marker =
      chain.entries.map ChainedMarker.marker ++ markers := by
  induction markers generalizing chain log with
  | nil =>
    obtain ⟨rfl, -⟩ := Prod.mk.inj (Except.ok.inj h)
    simp
  | cons marker markers ih =>
    obtain ⟨next, entry, rest, hframe, hrest, -⟩ := writeFrames_cons.mp h
    obtain ⟨chained, -, rfl, hentries⟩ := entries_of_writeFrame hframe
    rw [ih hrest, hentries]
    simp

theorem linked_of_writeFrames (hlinked : Linked hash chain.entries)
    (h : writeFrames hash chain markers = .ok (chain', log)) : Linked hash chain'.entries := by
  induction markers generalizing chain log with
  | nil =>
    obtain ⟨rfl, -⟩ := Prod.mk.inj (Except.ok.inj h)
    exact hlinked
  | cons marker markers ih =>
    obtain ⟨next, entry, rest, hframe, hrest, -⟩ := writeFrames_cons.mp h
    obtain ⟨chained, hvalid, -, hentries⟩ := entries_of_writeFrame hframe
    exact ih (hentries ▸ hlinked.append hvalid) hrest

/-! ## What the scan accepts -/

/-- One round of the loop, in terms of the bytes that remain. -/
theorem scanEntries_step {σ : Type} {collector : ScanCollector σ} (reader : List UInt8) (chain : σ)
    (cursor : ℕ) :
    scanEntries hash collector reader chain cursor = if reader = [] then .ok (chain, cursor, [])
      else match decodeEntry reader with
        | .error .truncated => .ok (chain, cursor, reader)
        | .error .corrupt => .error (corruptEntry collector chain)
        | .ok (marker, storedChainHash, consumed) =>
          admitEntry hash collector chain marker storedChainHash >>= fun chain =>
            scanEntries hash collector (reader.drop consumed) chain (cursor + consumed) := by
  rw [scanEntries]
  rcases readNextEntry_eq reader with ⟨hnone, rfl⟩ | ⟨hne, entry, rest, hread, htorn, hok⟩
  · rfl
  rw [if_neg hne]
  split
  · rename_i h
    rw [hread] at h
    cases h
  · rename_i h
    simp only [hread, Prod.mk.injEq, Option.some.injEq] at h
    obtain ⟨hdecode, rfl, -⟩ := h
    simp only [hdecode, (htorn hdecode).1]
  · rename_i h
    simp only [hread, Prod.mk.injEq, Option.some.injEq] at h
    simp only [h.1]
  · rename_i h
    simp only [hread, Prod.mk.injEq, Option.some.injEq] at h
    obtain ⟨hdecode, -, rfl⟩ := h
    simp only [hdecode, (hok _ _ _ hdecode).2]
    cases admitEntry hash collector chain _ _ <;> rfl

theorem admitEntry_eq_ok {stored : Digest} :
    admitEntry hash (chainCollector hash) chain marker stored = .ok chain' ↔
      ∃ chained, chain.validate hash marker = .ok chained ∧ chained.chainHash = stored ∧
        chain.adopt chained = .ok chain' := by
  simp only [admitEntry, chainCollector, bind_eq_ok, mapError_ok_iff, refuse_eq_ok,
    bne_eq_false_iff_eq, MarkerChain.append]
  constructor
  · rintro ⟨expected, hexpected, _, rfl, chained, hvalid, hadopt⟩
    have hhash := (MarkerChain.validate_eq_ok hvalid).2.2.2
    rw [hexpected] at hhash
    exact ⟨chained, hvalid, (Except.ok.inj hhash).symm, hadopt⟩
  · rintro ⟨chained, hvalid, rfl, hadopt⟩
    exact ⟨_, (MarkerChain.validate_eq_ok hvalid).2.2.2, (), rfl, chained, hvalid, hadopt⟩

/-- The scan reads a frame the writer would write next, and goes on behind it. -/
theorem scanEntries_writeFrame (h : writeFrame hash chain marker = .ok (chain', entry))
    (rest : List UInt8) (cursor : ℕ) :
    scanEntries hash (chainCollector hash) (entry ++ rest) chain cursor =
      scanEntries hash (chainCollector hash) rest chain' (cursor + entry.length) := by
  obtain ⟨chained, hvalid, hentry, hadopt⟩ := writeFrame_eq_ok.mp h
  obtain ⟨body, hbody, hmax, rfl⟩ := encodeEntry_eq_ok.mp hentry
  have hne : frame body chained.chainHash ++ rest ≠ [] := by
    intro hnil
    simp [frame, entryMagic] at hnil
  rw [scanEntries_step, if_neg hne, decodeEntry_frame _ _ hbody hmax]
  simp only [admitEntry_eq_ok.mpr ⟨chained, hvalid, rfl, hadopt⟩, length_frame, bind, Except.bind]
  rw [List.drop_left' (length_frame _ _)]

theorem scanEntries_writeFrames (h : writeFrames hash chain markers = .ok (chain', log))
    (rest : List UInt8) (cursor : ℕ) :
    scanEntries hash (chainCollector hash) (log ++ rest) chain cursor =
      scanEntries hash (chainCollector hash) rest chain' (cursor + log.length) := by
  induction markers generalizing chain log cursor with
  | nil =>
    obtain ⟨rfl, rfl⟩ := Prod.mk.inj (Except.ok.inj h)
    rfl
  | cons marker markers ih =>
    obtain ⟨next, entry, log', hframe, hrest, rfl⟩ := writeFrames_cons.mp h
    rw [List.append_assoc, scanEntries_writeFrame hframe, ih hrest, List.length_append,
      Nat.add_assoc]

/-- What reads as torn ends the scan, whatever it collects. -/
theorem scanEntries_torn {σ : Type} {collector : ScanCollector σ} {tail : List UInt8}
    (h : tail = [] ∨ ReadsAsTorn tail) (chain : σ) (cursor : ℕ) :
    scanEntries hash collector tail chain cursor = .ok (chain, cursor, tail) := by
  rw [scanEntries_step]
  by_cases hnil : tail = []
  · rw [if_pos hnil, hnil]
  · rw [if_neg hnil, decodeEntry_truncated.mpr (h.resolve_left hnil)]

theorem scanEntries_eq_ok {bytes tail : List UInt8} {cursor cursor' : ℕ} :
    scanEntries hash (chainCollector hash) bytes chain cursor = .ok (chain', cursor', tail) ↔
      ∃ markers log, writeFrames hash chain markers = .ok (chain', log) ∧ bytes = log ++ tail ∧
        cursor' = cursor + log.length ∧ (tail = [] ∨ ReadsAsTorn tail) := by
  constructor
  · intro h
    -- by induction on the bytes that remain: every decoded entry shortens them
    induction hn : bytes.length using Nat.strong_induction_on generalizing bytes chain cursor with
    | _ n ih =>
      rw [scanEntries_step] at h
      by_cases hnil : bytes = []
      · rw [if_pos hnil] at h
        obtain ⟨rfl, hrest⟩ := Prod.mk.inj (Except.ok.inj h)
        obtain ⟨rfl, rfl⟩ := Prod.mk.inj hrest
        exact ⟨[], [], rfl, by simp [hnil], rfl, .inl rfl⟩
      rw [if_neg hnil] at h
      cases hdecode : decodeEntry bytes with
      | error defect =>
        rw [hdecode] at h
        cases defect with
        | corrupt => cases h
        | truncated =>
          obtain ⟨rfl, hrest⟩ := Prod.mk.inj (Except.ok.inj h)
          obtain ⟨rfl, rfl⟩ := Prod.mk.inj hrest
          exact ⟨[], [], rfl, rfl, rfl, .inr (decodeEntry_truncated.mp hdecode)⟩
      | ok decoded =>
        obtain ⟨marker, stored, consumed⟩ := decoded
        obtain ⟨body, rest, hbody, hmax, rfl, rfl⟩ := decodeEntry_eq_ok.mp hdecode
        simp only [hdecode, bind_eq_ok, List.drop_left' (length_frame body stored)] at h
        obtain ⟨next, hadmit, h⟩ := h
        obtain ⟨chained, hvalid, rfl, hadopt⟩ := admitEntry_eq_ok.mp hadmit
        have hframe : writeFrame hash chain marker = .ok (next, frame body chained.chainHash) :=
          writeFrame_eq_ok.mpr ⟨chained, hvalid,
            encodeEntry_eq_ok.mpr ⟨body, hbody, hmax, rfl⟩, hadopt⟩
        have hshorter : rest.length < n := by
          rw [← hn, List.length_append, length_frame, entryTotal_eq]
          omega
        obtain ⟨markers, log, hlog, rfl, rfl, htail⟩ := ih _ hshorter h rfl
        refine ⟨marker :: markers, frame body chained.chainHash ++ log,
          writeFrames_cons.mpr ⟨next, _, log, hframe, hlog, rfl⟩, by simp, ?_, htail⟩
        rw [List.length_append, length_frame, Nat.add_assoc]
  · rintro ⟨markers, log, hlog, rfl, rfl, htail⟩
    rw [scanEntries_writeFrames hlog, scanEntries_torn htail]

/-- `recover_chain` finds exactly the writer's frames, reports the rest as discarded, and leaves
exactly the frames when it repairs. -/
theorem recoverChain_eq_ok {bytes : List UInt8} {repairTail : Bool} {discarded : ℕ}
    {file : Option (List UInt8)} :
    recoverChain hash (some bytes) repairTail = .ok (chain, discarded, file) ↔
      ∃ markers log tail, writeFrames hash .new markers = .ok (chain, log) ∧ bytes = log ++ tail ∧
        (tail = [] ∨ ReadsAsTorn tail) ∧ discarded = tail.length ∧
        file = some (if repairTail then log else bytes) := by
  have hrepair : ∀ log tail : List UInt8,
      (if (repairTail && (log ++ tail).length - log.length != 0) = true then
        (log ++ tail).take log.length else log ++ tail) =
      if repairTail then log else log ++ tail := by
    intro log tail
    cases repairTail with
    | false => simp
    | true => cases tail <;> simp
  simp only [recoverChain, scanChainInto, bind_eq_ok, Prod.exists, refuse_eq_ok,
    bne_eq_false_iff_eq, scanEntries_eq_ok, Nat.zero_add]
  constructor
  · rintro ⟨chain', cursor, tail, ⟨markers, log, hlog, rfl, rfl, htail⟩, _, -, hresult⟩
    obtain ⟨rfl, hrest⟩ := Prod.mk.inj (Except.ok.inj hresult)
    obtain ⟨rfl, rfl⟩ := Prod.mk.inj hrest
    exact ⟨markers, log, tail, hlog, rfl, htail, by simp, congrArg some (hrepair log tail)⟩
  · rintro ⟨markers, log, tail, hlog, rfl, htail, rfl, rfl⟩
    refine ⟨chain, log.length, tail, ⟨markers, log, hlog, rfl, rfl, htail⟩, (), by simp, ?_⟩
    rw [← hrepair log tail]
    simp [pure, Except.pure]

/-! ## The two collectors -/

/-- The streaming collector holds what it keeps of the retained one. -/
def Mirrors (scan : PrefixScan) (chain : MarkerChain) : Prop :=
  scan.scanned = MarkerPrefix.ofChain chain

variable (hash) in
theorem Mirrors.appendMarker {scan : PrefixScan} (h : Mirrors scan chain) (marker : CommitMarker) :
    SameOutcome Mirrors (scan.appendMarker hash marker) (chain.append hash marker) := by
  obtain ⟨scanned, requested, commitment⟩ := scan
  obtain rfl : scanned = MarkerPrefix.ofChain chain := h
  simp only [PrefixScan.appendMarker, MarkerPrefix.append_ofChain]
  cases chain.append hash marker with
  | error e => exact rfl
  | ok chain' => exact rfl

variable (hash) in
theorem Mirrors.admitEntry {scan : PrefixScan} {chain : MarkerChain} (h : Mirrors scan chain)
    (marker : CommitMarker) (stored : Digest) :
    SameOutcome Mirrors (admitEntry hash (prefixCollector hash) scan marker stored)
      (Chronicle.admitEntry hash (chainCollector hash) chain marker stored) := by
  have hvalue : (prefixCollector hash).chainValue scan = (chainCollector hash).chainValue chain :=
    (congrArg MarkerPrefix.chainValue h).trans (MarkerPrefix.chainValue_ofChain chain)
  unfold Chronicle.admitEntry
  rw [hvalue]
  refine (SameOutcome.refl (fun _ => rfl) _ : SameOutcome Eq _ _).bind ?_
  rintro expected _ rfl
  refine (SameOutcome.refl (fun _ => rfl) _ : SameOutcome Eq _ _).bind ?_
  rintro _ _ -
  exact (h.appendMarker hash marker).mapError _

/-- The two collectors go through any bytes together. -/
theorem Mirrors.scanEntries {scan : PrefixScan} {chain : MarkerChain} (h : Mirrors scan chain)
    (bytes : List UInt8) (cursor : ℕ) :
    SameOutcome (fun result result' => Mirrors result.1 result'.1 ∧ result.2 = result'.2)
      (scanEntries hash (prefixCollector hash) bytes scan cursor)
      (Chronicle.scanEntries hash (chainCollector hash) bytes chain cursor) := by
  induction hn : bytes.length using Nat.strong_induction_on
    generalizing bytes scan chain cursor with
  | _ n ih =>
    rw [scanEntries_step, scanEntries_step]
    by_cases hnil : bytes = []
    · rw [if_pos hnil, if_pos hnil]
      exact ⟨h, rfl⟩
    rw [if_neg hnil, if_neg hnil]
    cases hdecode : decodeEntry bytes with
    | error defect =>
      cases defect with
      | truncated => exact ⟨h, rfl⟩
      | corrupt =>
        show corruptEntry (prefixCollector hash) scan = corruptEntry (chainCollector hash) chain
        simp only [corruptEntry, prefixCollector, chainCollector, show scan.scanned = _ from h,
          MarkerPrefix.nextCommitSeq_ofChain]
    | ok decoded =>
      obtain ⟨marker, stored, consumed⟩ := decoded
      obtain ⟨body, rest, -, -, rfl, rfl⟩ := decodeEntry_eq_ok.mp hdecode
      refine (h.admitEntry hash marker stored).bind fun scan' chain' hadmit => ih _ ?_ hadmit _ _ rfl
      rw [← hn, List.length_drop, List.length_append, length_frame, entryTotal_eq]
      omega

/-- Both collectors accept the same files, refuse the others with the same error, and agree on the
discarded bytes, on the repaired file and on what they collected. -/
theorem scanChainInto_agree (file : Option (List UInt8)) (repairTail : Bool)
    (requested : CommitSeq) :
    SameOutcome (fun result result' => Mirrors result.1 result'.1 ∧ result.2 = result'.2)
      (scanChainInto hash (prefixCollector hash) file repairTail (.new requested))
      (recoverChain hash file repairTail) := by
  have hnew : Mirrors (.new requested) .new := rfl
  unfold recoverChain scanChainInto
  cases file with
  | none => exact ⟨hnew, rfl⟩
  | some bytes =>
    refine (hnew.scanEntries bytes 0).bind ?_
    rintro ⟨scan, validLen, entry⟩ ⟨chain, _, _⟩ ⟨hmirrors, ⟨⟩⟩
    refine (SameOutcome.refl (fun _ => rfl) _ : SameOutcome Eq _ _).bind ?_
    rintro _ _ -
    exact ⟨hmirrors, rfl⟩

end FrankenGraph.Chronicle

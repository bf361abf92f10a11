import FrankenGraph.Chronicle.Scan

/-!
# What recovery makes of a log

The recovery scan of `crates/fgdb-chronicle/src/commit.rs` over whole logs: logs that a crash cut
short, and logs with a damaged entry in the middle.

Results:
* `torn_tail_recovery`: a log cut anywhere inside its last frame recovers to exactly the frames
  before it, for both collectors
* `log_damage_detected_iff`: damage to one frame that is not the last is an error unless what is left
  reads as an interrupted append
* `damaged_log_discarded`: three damaged bytes of the first frame make the whole log read as one
* `frontier_binds_log`: logs that recover to one frontier hold the same history
-/

namespace FrankenGraph.Chronicle

open List Except

/-! ## A sample history -/

/-- A marker at a sequence number, with no heads and empty digests. -/
def sampleMarker (seq : BitVec 64) : CommitMarker where
  logicalCommandSeq := seq
  commitSeq := seq
  effectSource := .localApply chainOrigin chainOrigin
  prevGlobal := none
  headUpdates := []
  mergeRecordOid := none
  coordinateSchemaTransitionDigest := chainOrigin
  topologyEpoch := 0
  policyEpoch := 0
  revocationIndex := 0
  txnToken := List.Vector.replicate 16 0
  commitHlc := 0
  finalEffectDigest := chainOrigin
  authorizationDecisionDigest := chainOrigin
  resourceEffectDigest := chainOrigin
  payloadAvailabilityCertificateOid := none
  flags := 0
  identityCounters := none

def sampleBody (seq : BitVec 64) : List UInt8 :=
  (sampleMarker seq).layout (bigEndian 4 0)

theorem canonicalBytes_sampleMarker (seq : BitVec 64) :
    (sampleMarker seq).canonicalBytes = .ok (sampleBody seq) := by
  have hflags : carriesCounters 0 = (none : Option IdentityCounters).isSome := by decide
  have hcount : ([] : List HeadUpdate).length < 2 ^ 32 := by decide
  refine canonicalBytes_eq_ok.mpr ⟨hflags, hcount, ?_⟩
  rw [sampleBody, ← wordBytes_ofNat_eq (by decide)]
  rfl

theorem length_sampleBody (seq : BitVec 64) : (sampleBody seq).length = 268 := by
  simp [sampleBody, CommitMarker.layout, sampleMarker, EffectSource.writeInto, optionalBytes,
    countersBytes]

variable (hash : List UInt8 → Digest)

/-- The sample marker at `seq`, chained to `prior`. -/
def sampleChained (prior : Digest) (seq : BitVec 64) : ChainedMarker :=
  let value := hash (markerChainDomain ++ prior.toList ++ sampleBody seq)
  { marker := sampleMarker seq, markerOid := value, chainHash := value }

def sampleFirst : ChainedMarker := sampleChained hash chainOrigin 1

def sampleSecond : ChainedMarker := sampleChained hash (sampleFirst hash).chainHash 2

/-- The frame of a chained sample marker. -/
def sampleFrame (chained : ChainedMarker) : List UInt8 :=
  frame (sampleBody chained.marker.commitSeq) chained.chainHash

theorem encodeEntry_sample (seq : BitVec 64) (chainHash : Digest) :
    encodeEntry (sampleMarker seq) chainHash = .ok (frame (sampleBody seq) chainHash) :=
  encodeEntry_eq_ok.mpr ⟨_, canonicalBytes_sampleMarker seq, by
    rw [length_sampleBody]
    decide, rfl⟩

theorem writeFrame_sampleFirst : writeFrame hash .new (sampleMarker 1) =
      .ok (⟨[sampleFirst hash], []⟩, sampleFrame (sampleFirst hash)) := by
  refine writeFrame_eq_ok.mpr ⟨sampleFirst hash, ?_, encodeEntry_sample _ _, rfl⟩
  rfl

theorem writeFrame_sampleSecond : writeFrame hash ⟨[sampleFirst hash], []⟩ (sampleMarker 2) =
      .ok (⟨[sampleFirst hash, sampleSecond hash], []⟩, sampleFrame (sampleSecond hash)) := by
  refine writeFrame_eq_ok.mpr ⟨sampleSecond hash, ?_, encodeEntry_sample _ _, rfl⟩
  rfl

theorem writeFrames_sample : writeFrames hash .new [sampleMarker 1, sampleMarker 2] =
      .ok (⟨[sampleFirst hash, sampleSecond hash], []⟩,
        sampleFrame (sampleFirst hash) ++ sampleFrame (sampleSecond hash)) :=
  writeFrames_cons.mpr ⟨_, _, _, writeFrame_sampleFirst hash,
    writeFrames_singleton.mpr (writeFrame_sampleSecond hash), rfl⟩

variable {hash}

/-! ## Torn tails -/

/-- A beginning of the next frame, if it is not the whole, is nothing or reads as torn. -/
theorem torn_of_writeFrame {chain chain' : MarkerChain} {marker : CommitMarker}
    {entry tail : List UInt8} (h : writeFrame hash chain marker = .ok (chain', entry))
    (htail : tail <+: entry) (hproper : tail ≠ entry) : ReadsAsTorn tail := by
  obtain ⟨chained, -, hentry, -⟩ := writeFrame_eq_ok.mp h
  obtain ⟨body, hbody, hmax, rfl⟩ := encodeEntry_eq_ok.mp hentry
  obtain ⟨missing, hmissing⟩ := htail
  refine readsAsTorn_of_append hbody hmax hmissing.symm ?_
  rintro rfl
  exact hproper (by simpa using hmissing)

/-- A log of `n` written frames that ends inside the next one recovers exactly the `n` markers; the
repaired log takes a further marker, and both collectors see every file alike. -/
theorem torn_tail_recovery {markers : List CommitMarker} {chain : MarkerChain} {log : List UInt8}
    (hlog : writeFrames hash .new markers = .ok (chain, log))
    {next : CommitMarker} {chain' : MarkerChain} {entry tail : List UInt8}
    (hnext : writeFrame hash chain next = .ok (chain', entry))
    (htail : tail <+: entry) (hproper : tail ≠ entry) :
    chain.entries.map ChainedMarker.marker = markers ∧
    scanEntries hash (chainCollector hash) (log ++ tail) .new 0 = .ok (chain, log.length, tail) ∧
    (∀ repairTail, recoverChain hash (some (log ++ tail)) repairTail =
      .ok (chain, tail.length, some (if repairTail then log else log ++ tail))) ∧
    (∀ later chain'' entry', writeFrame hash chain later = .ok (chain'', entry') →
      chain''.entries.map ChainedMarker.marker = markers ++ [later] ∧
      ∀ repairTail, recoverChain hash (some (log ++ entry')) repairTail =
        .ok (chain'', 0, some (log ++ entry'))) ∧
    (∀ file repairTail requested,
      SameOutcome (fun result result' => result.1.scanned.frontierSeq = result'.1.frontierSeq ∧
          result.1.scanned.chainValue = result'.1.chainValue ∧ result.2 = result'.2)
        (scanChainInto hash (prefixCollector hash) file repairTail (.new requested))
        (recoverChain hash file repairTail)) := by
  have htorn := torn_of_writeFrame hnext htail hproper
  refine ⟨by simpa [MarkerChain.new] using markers_of_writeFrames hlog, ?_, fun repairTail => ?_,
    fun later chain'' entry' hlater => ⟨?_, fun repairTail => ?_⟩,
    fun file repairTail requested => ?_⟩
  · exact scanEntries_eq_ok.mpr ⟨markers, log, hlog, rfl, by simp, .inr htorn⟩
  · exact recoverChain_eq_ok.mpr ⟨markers, log, tail, hlog, rfl, .inr htorn, rfl, rfl⟩
  · obtain ⟨chained, -, rfl, hentries⟩ := entries_of_writeFrame hlater
    rw [hentries, map_append, markers_of_writeFrames hlog]
    rfl
  · have hmore := writeFrames_append.mpr
      ⟨chain, log, entry', hlog, writeFrames_singleton.mpr hlater, rfl⟩
    refine recoverChain_eq_ok.mpr ⟨_, _, [], hmore, by simp, .inl rfl, rfl, ?_⟩
    rw [ite_self]
  · refine (scanChainInto_agree file repairTail requested).mono ?_
    rintro ⟨scan, rest⟩ ⟨chain, rest'⟩ ⟨hmirrors, heq⟩
    refine ⟨congrArg MarkerPrefix.frontierSeq hmirrors, ?_, heq⟩
    exact (congrArg MarkerPrefix.chainValue hmirrors).trans (MarkerPrefix.chainValue_ofChain chain)

theorem length_sampleFrame (prior : Digest) (seq : BitVec 64) :
    (sampleFrame (sampleChained hash prior seq)).length = 316 := by
  rw [sampleFrame, length_frame, length_sampleBody]
  rfl

/-- One whole frame and the first ten bytes of the next. -/
theorem torn_tail_recovery_sample : recoverChain (fun _ => chainOrigin)
      (some (sampleFrame (sampleFirst fun _ => chainOrigin) ++
        (sampleFrame (sampleSecond fun _ => chainOrigin)).take 10)) true =
      .ok (⟨[sampleFirst fun _ => chainOrigin], []⟩, 10,
        some (sampleFrame (sampleFirst fun _ => chainOrigin))) := by
  have hlen : ((sampleFrame (sampleSecond fun _ => chainOrigin)).take 10).length = 10 := by
    rw [length_take, sampleSecond, length_sampleFrame]
    rfl
  have hproper : (sampleFrame (sampleSecond fun _ => chainOrigin)).take 10 ≠
      sampleFrame (sampleSecond fun _ => chainOrigin) := by
    intro heq
    have hlen' := hlen
    rw [heq, sampleSecond, length_sampleFrame] at hlen'
    cases hlen'
  have h := (torn_tail_recovery
    (writeFrames_singleton.mpr (writeFrame_sampleFirst fun _ => chainOrigin))
    (writeFrame_sampleSecond fun _ => chainOrigin) (List.take_prefix 10 _) hproper).2.2.1 true
  rw [hlen] at h
  exact h

/-! ## Damage before the last frame -/

variable {chain₁ chain₂ : MarkerChain}

/-- The last frame of a log can be read off its end: two written logs with the same last bytes, as
many as the shorter last frame has, end in the same marker and the same chain value. -/
theorem last_frame_eq {chain₁' chain₂' : MarkerChain} {marker₁ marker₂ : CommitMarker}
    {front₁ front₂ entry₁ entry₂ : List UInt8}
    (h₁ : writeFrame hash chain₁ marker₁ = .ok (chain₁', entry₁))
    (h₂ : writeFrame hash chain₂ marker₂ = .ok (chain₂', entry₂))
    (heq : front₁ ++ entry₁ = front₂ ++ entry₂) :
    marker₁ = marker₂ ∧ chain₁'.chainValue = chain₂'.chainValue := by
  obtain ⟨chained₁, hvalid₁, hentry₁, hadopt₁⟩ := writeFrame_eq_ok.mp h₁
  obtain ⟨chained₂, hvalid₂, hentry₂, hadopt₂⟩ := writeFrame_eq_ok.mp h₂
  obtain ⟨body₁, hbody₁, hmax₁, rfl⟩ := encodeEntry_eq_ok.mp hentry₁
  obtain ⟨body₂, hbody₂, hmax₂, rfl⟩ := encodeEntry_eq_ok.mp hentry₂
  -- the length is repeated at the end, so the two last frames begin at the same byte
  have hlen : body₁.length = body₂.length := by
    have hend : (front₁ ++ (entryMagic ++ (bigEndian 4 body₁.length ++ (body₁ ++
          chained₁.chainHash.toList)))) ++ (bigEndian 4 body₁.length ++ entryTrailerMagic) =
        (front₂ ++ (entryMagic ++ (bigEndian 4 body₂.length ++ (body₂ ++
          chained₂.chainHash.toList)))) ++ (bigEndian 4 body₂.length ++ entryTrailerMagic) := by
      simpa [frame] using heq
    have htrailer := (append_inj' hend (by simp)).2
    have hfield := (append_inj htrailer (by simp)).1
    rw [← ofBigEndian_length hmax₁, hfield, ofBigEndian_length hmax₂]
  have hframe := (append_inj' heq (by simp [hlen])).2
  have hrest : body₁ ++ (chained₁.chainHash.toList ++ (bigEndian 4 body₁.length ++
      entryTrailerMagic)) = body₂ ++ (chained₂.chainHash.toList ++ (bigEndian 4 body₂.length ++
      entryTrailerMagic)) := by
    rw [frame, frame, hlen] at hframe
    rw [hlen]
    exact append_cancel_left (append_cancel_left hframe)
  obtain ⟨rfl, hrest⟩ := append_inj hrest hlen
  have hhash := (append_inj hrest (by simp)).1
  refine ⟨canonicalBytes_inj hbody₁ hbody₂, ?_⟩
  obtain ⟨heads₁, hadopt₁'⟩ := MarkerChain.adopt_of_validate hvalid₁
  obtain ⟨heads₂, hadopt₂'⟩ := MarkerChain.adopt_of_validate hvalid₂
  rw [hadopt₁'] at hadopt₁
  rw [hadopt₂'] at hadopt₂
  obtain rfl := ok.inj hadopt₁
  obtain rfl := ok.inj hadopt₂
  simpa [MarkerChain.chainValue] using List.Vector.toList_injective hhash

/-- Two written logs whose last frames are at the ends of one byte string are the same log, if no
two of the transcripts behind them collide. -/
theorem markers_eq_of_end {markers₁ markers₂ : List CommitMarker} {marker₁ marker₂ : CommitMarker}
    {chain₁' chain₂' : MarkerChain} {log₁ log₂ front₁ front₂ entry₁ entry₂ : List UInt8}
    (h₁ : writeFrames hash .new markers₁ = .ok (chain₁, log₁))
    (hlast₁ : writeFrame hash chain₁ marker₁ = .ok (chain₁', entry₁))
    (h₂ : writeFrames hash .new markers₂ = .ok (chain₂, log₂))
    (hlast₂ : writeFrame hash chain₂ marker₂ = .ok (chain₂', entry₂))
    (heq : front₁ ++ entry₁ = front₂ ++ entry₂)
    (hinj : Set.InjOn hash (transcripts chain₁'.entries ∪ transcripts chain₂'.entries)) :
    markers₁ ++ [marker₁] = markers₂ ++ [marker₂] := by
  obtain ⟨hmarker, hvalue⟩ := last_frame_eq hlast₁ hlast₂ heq
  obtain ⟨chained₁, hvalid₁, rfl, hentries₁⟩ := entries_of_writeFrame hlast₁
  obtain ⟨chained₂, hvalid₂, rfl, hentries₂⟩ := entries_of_writeFrame hlast₂
  have hlinked₁ := (linked_of_writeFrames Linked.nil h₁).append hvalid₁
  have hlinked₂ := (linked_of_writeFrames Linked.nil h₂).append hvalid₂
  have hlen : (chain₁.entries ++ [chained₁]).length = (chain₂.entries ++ [chained₂]).length := by
    rw [length_append, length_append, length_singleton, length_singleton,
      ← hlinked₁.last.2, ← hlinked₂.last.2, hmarker]
  rw [hentries₁, hentries₂] at hinj
  rw [MarkerChain.chainValue, MarkerChain.chainValue, hentries₁, hentries₂] at hvalue
  have hsame := hlinked₁.markers_eq hlinked₂ hlen hvalue hinj
  rw [map_append, map_append, markers_of_writeFrames h₁, markers_of_writeFrames h₂]
    at hsame
  exact hsame

/-- Same-length damage to one frame before the last cannot be read as another complete log. -/
theorem damage_not_complete {markers before after : List CommitMarker} {victim : CommitMarker}
    {chain chain₀ : MarkerChain} {front entry back damaged : List UInt8}
    (hbefore : writeFrames hash .new before = .ok (chain₀, front))
    (hvictim : writeFrame hash chain₀ victim = .ok (chain₁, entry))
    (hafter : writeFrames hash chain₁ after = .ok (chain₂, back)) (hlast : after ≠ [])
    (hdiffer : damaged ≠ entry)
    (hmarkers : writeFrames hash chain₀ markers = .ok (chain, damaged ++ back))
    (hinj : Set.InjOn hash (transcripts chain₂.entries ∪ transcripts chain.entries)) : False := by
  obtain ⟨after', last, rfl⟩ := (eq_nil_or_concat' after).resolve_left hlast
  obtain ⟨middle, back', entry₁, hafter', hlast₁, rfl⟩ := writeFrames_append.mp hafter
  rw [writeFrames_singleton] at hlast₁
  have hne : markers ≠ [] := by
    rintro rfl
    obtain ⟨chained, -, hentry, -⟩ := writeFrame_eq_ok.mp hlast₁
    obtain ⟨body, -, -, rfl⟩ := encodeEntry_eq_ok.mp hentry
    have hnil := (Prod.mk.inj (ok.inj hmarkers)).2
    have hlen := congrArg length hnil
    simp only [length_nil, length_append, length_frame, entryTotal_eq] at hlen
    omega
  obtain ⟨markers', last', rfl⟩ := (eq_nil_or_concat' markers).resolve_left hne
  obtain ⟨middle', log', entry₂, hmarkers', hlast₂, hend⟩ := writeFrames_append.mp hmarkers
  rw [writeFrames_singleton] at hlast₂
  have hwhole₁ : writeFrames hash .new (before ++ (victim :: after')) =
      .ok (middle, front ++ (entry ++ back')) :=
    writeFrames_append.mpr ⟨chain₀, front, _, hbefore,
      writeFrames_cons.mpr ⟨chain₁, entry, back', hvictim, hafter', rfl⟩, rfl⟩
  have hwhole₂ : writeFrames hash .new (before ++ markers') = .ok (middle', front ++ log') :=
    writeFrames_append.mpr ⟨chain₀, front, log', hbefore, hmarkers', rfl⟩
  rw [← append_assoc] at hend
  have hsame := markers_eq_of_end hwhole₁ hlast₁ hwhole₂ hlast₂ hend hinj
  -- the same markers from the same chain are the same bytes
  have htail : victim :: (after' ++ [last]) = markers' ++ [last'] := by
    simpa using hsame
  rw [← htail] at hmarkers
  obtain ⟨chain₁', entry', rest', hvictim', hafter'', hbytes⟩ := writeFrames_cons.mp hmarkers
  rw [hvictim] at hvictim'
  obtain ⟨rfl, rfl⟩ := Prod.mk.inj (ok.inj hvictim')
  rw [hafter] at hafter''
  obtain ⟨-, rfl⟩ := Prod.mk.inj (ok.inj hafter'')
  exact hdiffer (append_cancel_right hbytes)

/-- Behind written frames, recovery succeeds exactly when more of them follow and then nothing or
what reads as torn. -/
theorem recoverChain_succeeds_iff {before : List CommitMarker} {chain₀ : MarkerChain}
    {front rest : List UInt8} (hbefore : writeFrames hash .new before = .ok (chain₀, front))
    (repairTail : Bool) :
    (∃ result, recoverChain hash (some (front ++ rest)) repairTail = .ok result) ↔
      ∃ markers chain log tail, writeFrames hash chain₀ markers = .ok (chain, log) ∧
        rest = log ++ tail ∧ (tail = [] ∨ ReadsAsTorn tail) := by
  constructor
  · rintro ⟨⟨chain, discarded, file⟩, h⟩
    obtain ⟨markers, log, tail, hlog, hbytes, htail, -, -⟩ := recoverChain_eq_ok.mp h
    have hscan := scanEntries_eq_ok.mpr ⟨markers, log, hlog, hbytes, (Nat.zero_add _).symm, htail⟩
    rw [scanEntries_writeFrames hbefore] at hscan
    obtain ⟨markers', log', hlog', hrest, -, htail'⟩ := scanEntries_eq_ok.mp hscan
    exact ⟨markers', chain, log', tail, hlog', hrest, htail'⟩
  · rintro ⟨markers, chain, log, tail, hlog, rfl, htail⟩
    refine ⟨(chain, tail.length, _), recoverChain_eq_ok.mpr ⟨before ++ markers, front ++ log, tail,
      writeFrames_append.mpr ⟨chain₀, front, log, hbefore, hlog, rfl⟩, by simp, htail, rfl, rfl⟩⟩

/-- Damage to one frame before the last is an error for both collectors exactly when the log does
not then split into frames the writer would have written and a remainder that reads as torn. -/
theorem log_damage_detected_iff {before after : List CommitMarker} {victim : CommitMarker}
    {chain₀ chain₁ chain₂ : MarkerChain} {front entry back damaged : List UInt8}
    (hbefore : writeFrames hash .new before = .ok (chain₀, front))
    (hvictim : writeFrame hash chain₀ victim = .ok (chain₁, entry))
    (hafter : writeFrames hash chain₁ after = .ok (chain₂, back)) (hlast : after ≠ [])
    (hdiffer : damaged ≠ entry)
    (hcollision : ∀ markers chain log, writeFrames hash chain₀ markers = .ok (chain, log) →
      log <+: damaged ++ back →
      Set.InjOn hash (transcripts chain₂.entries ∪ transcripts chain.entries)) :
    (∀ repairTail,
      (∃ error, recoverChain hash (some (front ++ (damaged ++ back))) repairTail = .error error) ∧
      ∀ requested, ∃ error, scanChainInto hash (prefixCollector hash)
        (some (front ++ (damaged ++ back))) repairTail (.new requested) = .error error) ↔
    ¬ ∃ markers chain log tail, writeFrames hash chain₀ markers = .ok (chain, log) ∧
      damaged ++ back = log ++ tail ∧ tail ≠ [] ∧ ReadsAsTorn tail := by
  have hsplit : ∀ repairTail,
      (∃ result, recoverChain hash (some (front ++ (damaged ++ back))) repairTail = .ok result) ↔
      ∃ markers chain log tail, writeFrames hash chain₀ markers = .ok (chain, log) ∧
        damaged ++ back = log ++ tail ∧ tail ≠ [] ∧ ReadsAsTorn tail := by
    intro repairTail
    rw [recoverChain_succeeds_iff hbefore]
    constructor
    · rintro ⟨markers, chain, log, tail, hlog, hbytes, htail⟩
      have hne : tail ≠ [] := by
        rintro rfl
        rw [append_nil] at hbytes
        subst hbytes
        exact damage_not_complete hbefore hvictim hafter hlast hdiffer hlog
          (hcollision markers chain _ hlog (prefix_refl _))
      exact ⟨markers, chain, log, tail, hlog, hbytes, hne, htail.resolve_left hne⟩
    · rintro ⟨markers, chain, log, tail, hlog, hbytes, -, htorn⟩
      exact ⟨markers, chain, log, tail, hlog, hbytes, .inr htorn⟩
  constructor
  · intro herror hexists
    obtain ⟨error, hfail⟩ := (herror false).1
    obtain ⟨result, hok⟩ := (hsplit false).mpr hexists
    rw [hok] at hfail
    cases hfail
  · intro hnone repairTail
    have hfail : ∃ error, recoverChain hash (some (front ++ (damaged ++ back))) repairTail =
        .error error := by
      cases hresult : recoverChain hash (some (front ++ (damaged ++ back))) repairTail with
      | error error => exact ⟨error, rfl⟩
      | ok result => exact absurd ((hsplit repairTail).mp ⟨result, hresult⟩) hnone
    exact ⟨hfail, fun requested =>
      (scanChainInto_agree _ repairTail requested).isError_iff.mpr hfail⟩

/-- A digest that copies the beginning of the marker out of its transcript. -/
def sampleHash (bytes : List UInt8) : Digest :=
  List.Vector.ofFn fun i => bytes.getD (59 + i) 0

theorem sampleHash_injOn :
    Set.InjOn sampleHash (transcripts [sampleFirst sampleHash, sampleSecond sampleHash]) := by
  have hmem : ∀ bytes ∈ transcripts [sampleFirst sampleHash, sampleSecond sampleHash],
      (sampleMarker 1).transcript chainOrigin = .ok bytes ∨
        (sampleMarker 2).transcript (sampleFirst sampleHash).chainHash = .ok bytes := by
    rintro bytes ⟨earlier, entry, hfront, hbytes⟩
    have hsplit : earlier ++ [entry] <+: [sampleFirst sampleHash] ++ [sampleSecond sampleHash] :=
      hfront
    rcases prefix_concat_iff.mp hsplit with heq | hfirst
    · obtain ⟨rfl, hentry⟩ := append_inj' heq rfl
      obtain rfl := singleton_injective hentry
      exact .inr hbytes
    · rcases prefix_concat_iff.mp
        (show earlier ++ [entry] <+: [] ++ [sampleFirst sampleHash] from hfirst) with heq | hnil
      · obtain ⟨rfl, hentry⟩ := append_inj' heq rfl
        obtain rfl := singleton_injective hentry
        exact .inl hbytes
      · simp at hnil
  have hdistinct : ∀ bytes bytes', (sampleMarker 1).transcript chainOrigin = .ok bytes →
      (sampleMarker 2).transcript (sampleFirst sampleHash).chainHash = .ok bytes' →
      sampleHash bytes ≠ sampleHash bytes' := by
    intro bytes bytes' hbytes hbytes'
    obtain ⟨body, hbody, rfl⟩ := transcript_eq_ok.mp hbytes
    obtain ⟨body', hbody', rfl⟩ := transcript_eq_ok.mp hbytes'
    rw [canonicalBytes_sampleMarker] at hbody hbody'
    obtain rfl := ok.inj hbody
    obtain rfl := ok.inj hbody'
    decide +kernel
  intro bytes hbytes bytes' hbytes' heq
  rcases hmem bytes hbytes with h | h <;> rcases hmem bytes' hbytes' with h' | h'
  · exact ok.inj (h.symm.trans h')
  · exact absurd heq (hdistinct bytes bytes' h h')
  · exact absurd heq.symm (hdistinct bytes' bytes h' h)
  · exact ok.inj (h.symm.trans h')

/-- The sample log with the first byte of its first frame overwritten is refused. -/
theorem log_damage_detected_sample :
    ∃ error, recoverChain sampleHash (some ((sampleFrame (sampleFirst sampleHash)).set 0 0 ++
      sampleFrame (sampleSecond sampleHash))) true = .error error := by
  -- no frame begins with a zero byte, and neither does anything that reads as torn
  have hnoFrame : ∀ markers chain log, writeFrames sampleHash .new markers = .ok (chain, log) →
      log <+: (sampleFrame (sampleFirst sampleHash)).set 0 0 ++
        sampleFrame (sampleSecond sampleHash) → markers = [] ∧ chain = .new ∧ log = [] := by
    intro markers chain log hlog hfront
    cases markers with
    | nil =>
      obtain ⟨rfl, rfl⟩ := Prod.mk.inj (ok.inj hlog)
      exact ⟨rfl, rfl, rfl⟩
    | cons marker markers =>
      obtain ⟨_, entry, rest, hframe, -, rfl⟩ := writeFrames_cons.mp hlog
      obtain ⟨chained, -, hentry, -⟩ := writeFrame_eq_ok.mp hframe
      obtain ⟨body, -, -, rfl⟩ := encodeEntry_eq_ok.mp hentry
      obtain ⟨later, hlater⟩ := hfront
      have hhead : (70 : UInt8) = 0 := (cons.inj hlater).1
      exact absurd hhead (by decide)
  have h := (log_damage_detected_iff
    (show writeFrames sampleHash .new [] = .ok (.new, []) from rfl)
    (writeFrame_sampleFirst sampleHash)
    (writeFrames_singleton.mpr (writeFrame_sampleSecond sampleHash)) (by simp)
    (show (sampleFrame (sampleFirst sampleHash)).set 0 0 ≠ sampleFrame (sampleFirst sampleHash) from
      fun heq => absurd (cons.inj heq).1 (by decide))
    (fun markers chain log hlog hfront => by
      obtain ⟨-, rfl, -⟩ := hnoFrame markers chain log hlog hfront
      refine sampleHash_injOn.mono (Set.union_subset (Set.Subset.refl _) ?_)
      rintro bytes ⟨earlier, entry, hnil, -⟩
      simp [MarkerChain.new] at hnil)).mpr ?_
  · exact (h true).1
  · rintro ⟨markers, chain, log, tail, hlog, hbytes, -, htorn⟩
    obtain ⟨-, -, rfl⟩ := hnoFrame markers chain log hlog ⟨tail, hbytes.symm⟩
    rw [nil_append] at hbytes
    rw [← hbytes] at htorn
    rcases htorn with hshort | ⟨hmagic, -⟩
    · rw [length_append, length_set, sampleFirst, length_sampleFrame] at hshort
      omega
    · exact absurd (cons.inj hmagic).1 (by decide)

/-! ### Three damaged bytes that lose the log -/

/-- The first byte of every effect source is the tag of its only arm. -/
theorem tag_of_canonicalBytes {marker : CommitMarker} {body : List UInt8}
    (h : marker.canonicalBytes = .ok body) (rest : List UInt8) : (body ++ rest)[16]? = some 1 := by
  obtain ⟨-, -, rfl⟩ := canonicalBytes_eq_ok.mp h
  unfold CommitMarker.layout
  cases marker.effectSource with
  | localApply capsuleRef digest =>
    rw [append_assoc, append_assoc, append_assoc,
      getElem?_append_right (by simp), getElem?_append_right (by simp)]
    simp [EffectSource.writeInto]

/-- The frame of a body whose length field reads 32768 and whose effect-source tag is zero. -/
def damagedFrame (chained : ChainedMarker) : List UInt8 :=
  entryMagic ++ (bigEndian 4 32768 ++ ((sampleBody chained.marker.commitSeq).set 16 0 ++
    (chained.chainHash.toList ++ (bigEndian 4 268 ++ entryTrailerMagic))))

theorem length_damagedFrame (prior : Digest) (seq : BitVec 64) :
    (damagedFrame (sampleChained hash prior seq)).length = 316 := by
  simp [damagedFrame, entryMagic, entryTrailerMagic, length_sampleBody]

/-- The damaged frame and a whole one behind it. -/
def damagedLog (hash : List UInt8 → Digest) : List UInt8 :=
  damagedFrame (sampleFirst hash) ++ sampleFrame (sampleSecond hash)

/-- The damaged log reads as one interrupted append. -/
theorem readsAsTorn_damaged (hash : List UInt8 → Digest) : ReadsAsTorn (damagedLog hash) := by
  have hlength : lengthAt (damagedLog hash) 4 = 32768 := by
    rw [damagedLog, damagedFrame, append_assoc, append_assoc]
    show ofBigEndian ((bigEndian 4 32768 ++ _).take 4) = 32768
    rw [take_left' (length_bigEndian 4 _), ofBigEndian_length (by decide)]
  refine .inr ⟨rfl, .inr ⟨by rw [hlength]; decide, ?_, ?_⟩⟩
  · rw [hlength, damagedLog, length_append, sampleFirst, sampleSecond, length_damagedFrame, length_sampleFrame]
    decide
  · unfold hasCompleteIntrinsicEntryExtent
    cases hdecode : decodeCanonicalPrefix ((damagedLog hash).drop entryHeaderBytes) with
    | none => rfl
    | some decoded =>
      -- no marker begins with a zero tag
      obtain ⟨body, rest, hbody, hbytes, -⟩ := decodeCanonicalPrefix_eq_some.mp hdecode
      have htag := tag_of_canonicalBytes hbody rest
      rw [← hbytes, damagedLog, damagedFrame, append_assoc, append_assoc] at htag
      have hdrop : ∀ later : List UInt8, (entryMagic ++ (bigEndian 4 32768 ++ later)).drop
          entryHeaderBytes = later := fun later => rfl
      rw [hdrop, append_assoc, getElem?_append_left
        (by rw [length_set, length_sampleBody]; decide), getElem?_set_self
        (by rw [length_sampleBody]; decide)] at htag
      exact absurd htag (by decide)

/-- Whatever the hash, the log of two frames is recovered as empty, and repaired to nothing, once
the length and the tag of its first frame are damaged. -/
theorem recoverChain_damaged (hash : List UInt8 → Digest) :
    damagedFrame (sampleFirst hash) ≠ sampleFrame (sampleFirst hash) ∧
      recoverChain hash (some (damagedLog hash)) true = .ok (.new, 632, some []) ∧
      scanCommittedPrefix hash (some (damagedLog hash)) 2 =
        .ok ⟨CommitSeq.origin, chainOrigin, 2, none⟩ := by
  have htorn := readsAsTorn_damaged hash
  have hlen : (damagedLog hash).length = 632 := by
    rw [damagedLog, List.length_append, sampleFirst, sampleSecond, length_damagedFrame, length_sampleFrame]
  refine ⟨?_, ?_, ?_⟩
  · intro heq
    have hfield : (damagedFrame (sampleFirst hash))[6]? = (sampleFrame (sampleFirst hash))[6]? :=
      congrArg (fun bytes => bytes[6]?) heq
    rw [damagedFrame, sampleFrame, frame, length_sampleBody] at hfield
    exact absurd (Option.some.inj hfield) (by decide)
  · exact recoverChain_eq_ok.mpr ⟨[], [], _, rfl, rfl, .inr htorn, hlen.symm, rfl⟩
  · simp only [scanCommittedPrefix, scanChainInto, scanEntries_torn (.inr htorn), bind, Except.bind]
    simp only [refuse, Nat.zero_add, bne_self_eq_false, Bool.false_eq_true, if_false]
    rfl

/-- Two complete frames, of which the first is damaged in place without changing its length: the
log is recovered as empty and repaired to nothing. -/
theorem damaged_log_discarded : writeFrames sampleHash .new [sampleMarker 1, sampleMarker 2] =
        .ok (⟨[sampleFirst sampleHash, sampleSecond sampleHash], []⟩,
          sampleFrame (sampleFirst sampleHash) ++ sampleFrame (sampleSecond sampleHash)) ∧
      (damagedFrame (sampleFirst sampleHash)).length =
        (sampleFrame (sampleFirst sampleHash)).length ∧
      damagedFrame (sampleFirst sampleHash) ≠ sampleFrame (sampleFirst sampleHash) ∧
      recoverChain sampleHash
        (some (damagedFrame (sampleFirst sampleHash) ++ sampleFrame (sampleSecond sampleHash)))
        true = .ok (.new, 632, some []) ∧
      scanCommittedPrefix sampleHash
        (some (damagedFrame (sampleFirst sampleHash) ++ sampleFrame (sampleSecond sampleHash))) 2 =
        .ok ⟨CommitSeq.origin, chainOrigin, 2, none⟩ := by
  refine ⟨writeFrames_sample sampleHash, ?_, recoverChain_damaged sampleHash⟩
  rw [sampleFirst, length_damagedFrame, length_sampleFrame]

/-! ## What a frontier fixes -/

/-- The frontier of a linked history counts its entries. -/
theorem Linked.frontier_seq {chain : MarkerChain} (h : Linked hash chain.entries) :
    chain.frontier.elim 0 (·.commitSeq.toNat) = chain.entries.length := by
  obtain ⟨entries, heads⟩ := chain
  rcases eq_nil_or_concat' entries with rfl | ⟨earlier, entry, rfl⟩
  · rfl
  · rw [MarkerChain.frontier_concat, length_append]
    exact h.last.2

/-- **One frontier, one history.** Logs that recover to one frontier hold the same chain, and repair
leaves the same bytes of both, if no two of the transcripts behind them collide. -/
theorem frontier_binds_log {bytes bytes' : List UInt8} {chain chain' : MarkerChain}
    {discarded discarded' : ℕ} {file file' : Option (List UInt8)}
    (h : recoverChain hash (some bytes) true = .ok (chain, discarded, file))
    (h' : recoverChain hash (some bytes') true = .ok (chain', discarded', file'))
    (hfrontier : chain.frontier = chain'.frontier)
    (hinj : Set.InjOn hash (transcripts chain.entries ∪ transcripts chain'.entries)) :
    chain = chain' ∧ file = file' := by
  obtain ⟨markers, log, -, hlog, -, -, -, rfl⟩ := recoverChain_eq_ok.mp h
  obtain ⟨markers', log', -, hlog', -, -, -, rfl⟩ := recoverChain_eq_ok.mp h'
  have hlinked := linked_of_writeFrames .nil hlog
  have hlinked' := linked_of_writeFrames .nil hlog'
  have hlen : chain.entries.length = chain'.entries.length := by
    rw [← hlinked.frontier_seq, hfrontier, hlinked'.frontier_seq]
  have hvalue : chain.chainValue = chain'.chainValue := by
    rw [chain.chainValue_eq, hfrontier, chain'.chainValue_eq]
  have hmarkers := hlinked.markers_eq hlinked' hlen hvalue hinj
  rw [markers_of_writeFrames hlog, markers_of_writeFrames hlog'] at hmarkers
  obtain rfl := append_cancel_left hmarkers
  obtain ⟨rfl, rfl⟩ := Prod.mk.inj (ok.inj (hlog.symm.trans hlog'))
  exact ⟨rfl, rfl⟩

/-- The sample log with and without a torn byte. -/
theorem frontier_binds_log_sample : ∃ (log : List UInt8) (chain : _) (file : _),
    recoverChain sampleHash (some (log ++ [])) true = .ok (chain, 0, file) ∧
      recoverChain sampleHash (some (log ++ [0])) true = .ok (chain, 1, file) := by
  have hlog := writeFrames_sample sampleHash
  have h : recoverChain sampleHash _ true = _ :=
    recoverChain_eq_ok.mpr ⟨_, _, [], hlog, rfl, .inl rfl, rfl, rfl⟩
  have h' : recoverChain sampleHash _ true = _ :=
    recoverChain_eq_ok.mpr ⟨_, _, [0], hlog, rfl, .inr (by decide), rfl, rfl⟩
  obtain ⟨-, hfile⟩ := frontier_binds_log h h' rfl (by simpa using sampleHash_injOn)
  exact ⟨_, _, _, h, hfile ▸ h'⟩

end FrankenGraph.Chronicle

import FrankenGraph.Chronicle.Marker

/-!
# The marker chain

The chain half of `crates/fgdb-chronicle/src/marker.rs` (L38-43, 211-237 and 376-701):
the chain hash, the one law a marker is admitted by, and the two states that apply it, the retained
`MarkerChain` and the streaming `MarkerPrefix`. The digest function is the parameter `hash`.

Results:
* `MarkerChain.validate_eq_ok`: a validated marker continues the sequence and carries the hash of
  its transcript; adopting it cannot fail
* `MarkerPrefix.append_ofChain`: the streaming state admits the same markers and moves alike
* `Linked.markers_eq`: two linked histories of one length and one chain value hold the same markers
  when `hash` has no collision among their transcripts
-/

namespace FrankenGraph.Chronicle

open List Except

/-! ## Chain hash -/

/-- `MARKER_CHAIN_DOMAIN` (L39): `fgdb:commit-marker-chain:v2`. -/
def markerChainDomain : List UInt8 :=
  [102, 103, 100, 98, 58, 99, 111, 109, 109, 105, 116, 45, 109, 97, 114, 107, 101, 114, 45, 99,
   104, 97, 105, 110, 58, 118, 50]

/-- `CHAIN_ORIGIN` (L43). -/
def chainOrigin : Digest := List.Vector.replicate 32 0

/-- What `chain_hash` feeds to the hasher: the domain, the prior chain value, the marker. -/
def CommitMarker.transcript (self : CommitMarker) (prior : Digest) :
    Except ChainError (List UInt8) := do
  let bytes ← self.canonicalBytes
  return markerChainDomain ++ prior.toList ++ bytes

variable {marker : CommitMarker} {bytes : List UInt8}

theorem transcript_eq_ok {prior : Digest} : marker.transcript prior = .ok bytes ↔
      ∃ body, marker.canonicalBytes = .ok body ∧
        bytes = markerChainDomain ++ prior.toList ++ body := by
  simp only [CommitMarker.transcript, bind_eq_ok]
  constructor
  · rintro ⟨body, hbody, h⟩
    exact ⟨body, hbody, (ok.inj h).symm⟩
  · rintro ⟨body, hbody, rfl⟩
    exact ⟨body, hbody, rfl⟩

theorem canonicalBytes_inj {marker' : CommitMarker} (h : marker.canonicalBytes = .ok bytes)
    (h' : marker'.canonicalBytes = .ok bytes) :
    marker = marker' :=
  (decodes_readCanonical.unique h h' (rfl : bytes ++ [] = bytes ++ [])).1

/-- A transcript determines the prior chain value and the marker. -/
theorem transcript_inj {marker' : CommitMarker} {prior prior' : Digest}
    (h : marker.transcript prior = .ok bytes)
    (h' : marker'.transcript prior' = .ok bytes) : marker = marker' ∧ prior = prior' := by
  obtain ⟨body, hbody, rfl⟩ := transcript_eq_ok.mp h
  obtain ⟨body', hbody', heq⟩ := transcript_eq_ok.mp h'
  rw [append_assoc, append_assoc, append_cancel_left_eq] at heq
  obtain ⟨hprior, rfl⟩ := append_inj heq (by simp)
  exact ⟨canonicalBytes_inj hbody hbody', List.Vector.toList_injective hprior⟩

variable (hash : List UInt8 → Digest)

/-- `CommitMarker::chain_hash` (L222-228). -/
def CommitMarker.chainHash (self : CommitMarker) (prior : Digest) : Except ChainError Digest := do
  let bytes ← self.transcript prior
  return hash bytes

/-! ## Admission -/

/-- `ChainedMarker` (L378-384). -/
structure ChainedMarker where
  marker : CommitMarker
  markerOid : ObjectId
  chainHash : Digest
deriving DecidableEq

/-- `MarkerFrontier` (L402-406). -/
structure MarkerFrontier where
  commitSeq : CommitSeq
  logicalCommandSeq : BitVec 64
  chainHash : Digest
deriving DecidableEq

/-- `MarkerFrontier::from` (L409-415). -/
def MarkerFrontier.from (chained : ChainedMarker) : MarkerFrontier where
  commitSeq := chained.marker.commitSeq
  logicalCommandSeq := chained.marker.logicalCommandSeq
  chainHash := chained.chainHash

/-- The head of each branch that has one. -/
abbrev Heads := List ((GraphId × BranchId) × MarkerRef)

/-- `CommitSeq::checked_successor` (fgdb-types, `ids.rs` L127-132). -/
def checkedSuccessor (seq : CommitSeq) : Except ChainError CommitSeq :=
  if seq = BitVec.allOnes 64 then .error (.commitSeqExhausted seq) else .ok (seq + 1)

/-- `next_commit_seq` (L452-457). -/
def nextCommitSeq : Option MarkerFrontier → Except ChainError CommitSeq
  | none => .ok CommitSeq.first
  | some last => checkedSuccessor last.commitSeq

/-- The chain value after a frontier. -/
def frontierValue : Option MarkerFrontier → Digest
  | none => chainOrigin
  | some last => last.chainHash

/-- `branch_head` (L459-468). -/
def branchHead (heads : Heads) (graph : GraphId) (branch : BranchId) : Option MarkerRef :=
  (heads.find? fun head => head.1.1 == graph && head.1.2 == branch).map Prod.snd

/-- The `(graph, branch)` order. -/
def HeadUpdate.before (first second : HeadUpdate) : Bool :=
  first.graph < second.graph || (first.graph == second.graph && first.branch < second.branch)

/-- `head_updates_are_canonical` (L233-237). -/
def CommitMarker.headUpdatesAreCanonical (self : CommitMarker) : Bool :=
  (self.headUpdates.zip self.headUpdates.tail).all fun pair => pair.1.before pair.2

/-- The command-sequence check of `validate_marker` (L484-496). -/
def checkCommandSeq (marker : CommitMarker) : Option MarkerFrontier → Except ChainError Unit
  | none => .ok ()
  | some last => do
    refuse (last.logicalCommandSeq == BitVec.allOnes 64)
      (.logicalCommandSeqExhausted last.logicalCommandSeq)
    refuse (marker.logicalCommandSeq ≤ last.logicalCommandSeq)
      (.nonMonotonicCommandSeq last.logicalCommandSeq marker.logicalCommandSeq)

/-- One compare-and-swap of `validate_marker` (L503-513). -/
def checkHead (heads : Heads) (update : HeadUpdate) : Except ChainError Unit :=
  let actual := branchHead heads update.graph update.branch
  refuse (actual != update.expectedPrevious)
    (.headCasMismatch ⟨update.graph, update.branch, update.expectedPrevious, actual⟩)

/-- `validate_marker` (L472-516). -/
def validateMarker (marker : CommitMarker) (frontier : Option MarkerFrontier) (heads : Heads) :
    Except ChainError Digest := do
  let expectedSeq ← nextCommitSeq frontier
  refuse (marker.commitSeq != expectedSeq) (.nonContiguousCommitSeq expectedSeq marker.commitSeq)
  checkCommandSeq marker frontier
  refuse (!marker.headUpdatesAreCanonical) .nonCanonicalHeadUpdates
  -- every compare-and-swap is checked before any head moves
  marker.headUpdates.forM (checkHead heads)
  marker.chainHash hash (frontierValue frontier)

/-- The head update of `adopt_marker` (L531-543): replace the branch's head, or push one. -/
def advanceHead (newHead : MarkerRef) : Heads → HeadUpdate → Heads
  | [], update => [((update.graph, update.branch), newHead)]
  | head :: heads, update =>
    if head.1.1 == update.graph && head.1.2 == update.branch then (head.1, newHead) :: heads
    else head :: advanceHead newHead heads update

/-- `adopt_marker` (L518-546). -/
def adoptMarker (chained : ChainedMarker) (frontier : Option MarkerFrontier) (heads : Heads) :
    Except ChainError (MarkerFrontier × Heads) := do
  let expectedSeq ← nextCommitSeq frontier
  refuse (chained.marker.commitSeq != expectedSeq)
    (.nonContiguousCommitSeq expectedSeq chained.marker.commitSeq)
  let newHead : MarkerRef := ⟨chained.markerOid, chained.marker.commitSeq⟩
  return (.from chained, chained.marker.headUpdates.foldl (advanceHead newHead) heads)

variable {hash}

/-- What an admitted marker satisfies, as far as the log depends on it. -/
theorem validateMarker_eq_ok {frontier : Option MarkerFrontier} {heads : Heads} {value : Digest}
    (h : validateMarker hash marker frontier heads = .ok value) :
    nextCommitSeq frontier = .ok marker.commitSeq ∧
      marker.chainHash hash (frontierValue frontier) = .ok value := by
  simp only [validateMarker, bind_eq_ok, refuse_eq_ok, bne_eq_false_iff_eq] at h
  obtain ⟨seq, hseq, _, hmarker, _, _, _, _, _, _, hvalue⟩ := h
  rw [hmarker]
  exact ⟨hseq, hvalue⟩

theorem adoptMarker_eq (chained : ChainedMarker) {frontier : Option MarkerFrontier} (heads : Heads)
    (h : nextCommitSeq frontier = .ok chained.marker.commitSeq) :
    adoptMarker chained frontier heads = .ok (.from chained, chained.marker.headUpdates.foldl
      (advanceHead ⟨chained.markerOid, chained.marker.commitSeq⟩) heads) := by
  simp [adoptMarker, h, bind, Except.bind, refuse, pure, Except.pure]

/-! ## The two chain states -/

/-- `MarkerChain` (L393-396). -/
structure MarkerChain where
  entries : List ChainedMarker
  heads : Heads
deriving DecidableEq

/-- `MarkerPrefix` (L420-424). -/
structure MarkerPrefix where
  frontier : Option MarkerFrontier
  heads : Heads
deriving DecidableEq

/-- The chain value after some entries. -/
def lastValue (entries : List ChainedMarker) : Digest :=
  match entries.getLast? with
  | none => chainOrigin
  | some entry => entry.chainHash

@[simp]
theorem lastValue_concat (entries : List ChainedMarker) (entry : ChainedMarker) :
    lastValue (entries ++ [entry]) = entry.chainHash := by
  simp [lastValue]

namespace MarkerChain

/-- `MarkerChain::new` (L549-551). -/
def new : MarkerChain := ⟨[], []⟩

/-- The frontier the chain's last entry gives. -/
def frontier (self : MarkerChain) : Option MarkerFrontier :=
  self.entries.getLast?.map .from

/-- `MarkerChain::chain_value` (L554-558). -/
def chainValue (self : MarkerChain) : Digest := lastValue self.entries

/-- `MarkerChain::next_commit_seq` (L563-565). -/
def nextCommitSeq (self : MarkerChain) : Except ChainError CommitSeq :=
  Chronicle.nextCommitSeq self.frontier

variable (hash) in
/-- `MarkerChain::validate` (L642-659). -/
def validate (self : MarkerChain) (marker : CommitMarker) : Except ChainError ChainedMarker := do
  let chainHash ← validateMarker hash marker self.frontier self.heads
  return { marker, markerOid := chainHash, chainHash }

/-- `MarkerChain::adopt` (L668-676). -/
def adopt (self : MarkerChain) (chained : ChainedMarker) : Except ChainError MarkerChain := do
  let (_, heads) ← adoptMarker chained self.frontier self.heads
  return { entries := self.entries ++ [chained], heads }

variable (hash) in
/-- `MarkerChain::append` (L627-630). -/
def append (self : MarkerChain) (marker : CommitMarker) : Except ChainError MarkerChain := do
  let chained ← self.validate hash marker
  self.adopt chained

@[simp]
theorem frontier_concat (entries : List ChainedMarker) (entry : ChainedMarker) (heads : Heads) :
    (MarkerChain.mk (entries ++ [entry]) heads).frontier = some (.from entry) := by
  simp [frontier]

theorem chainValue_eq (self : MarkerChain) : self.chainValue = frontierValue self.frontier := by
  unfold chainValue lastValue frontier frontierValue
  cases self.entries.getLast? with
  | none => rfl
  | some entry => rfl

/-- A validated marker is the next one, and its hash covers the chain value it extends. -/
theorem validate_eq_ok {self : MarkerChain} {marker : CommitMarker} {chained : ChainedMarker}
    (h : self.validate hash marker = .ok chained) :
    chained.marker = marker ∧ chained.markerOid = chained.chainHash ∧
      self.nextCommitSeq = .ok marker.commitSeq ∧
      marker.chainHash hash self.chainValue = .ok chained.chainHash := by
  simp only [validate, bind_eq_ok] at h
  obtain ⟨value, hvalue, hchained⟩ := h
  obtain rfl := ok.inj hchained
  obtain ⟨hseq, hhash⟩ := validateMarker_eq_ok hvalue
  exact ⟨rfl, rfl, hseq, by rw [chainValue_eq]; exact hhash⟩

/-- Adopting what was validated against the same chain succeeds and adds exactly that entry. -/
theorem adopt_of_validate {self : MarkerChain} {marker : CommitMarker} {chained : ChainedMarker}
    (h : self.validate hash marker = .ok chained) :
    ∃ heads, self.adopt chained = .ok ⟨self.entries ++ [chained], heads⟩ := by
  obtain ⟨hmarker, _, hseq, _⟩ := validate_eq_ok h
  have hadopt := adoptMarker_eq chained self.heads (hmarker.symm ▸ hseq)
  exact ⟨_, by rw [adopt, hadopt]; rfl⟩

end MarkerChain

namespace MarkerPrefix

/-- `MarkerPrefix::default`. -/
def new : MarkerPrefix := ⟨none, []⟩

/-- `MarkerPrefix::frontier` (L427-430). -/
def frontierSeq (self : MarkerPrefix) : CommitSeq :=
  match self.frontier with
  | none => CommitSeq.origin
  | some last => last.commitSeq

/-- `MarkerPrefix::chain_value` (L432-434). -/
def chainValue (self : MarkerPrefix) : Digest := frontierValue self.frontier

/-- `MarkerPrefix::next_commit_seq` (L436-438). -/
def nextCommitSeq (self : MarkerPrefix) : Except ChainError CommitSeq :=
  Chronicle.nextCommitSeq self.frontier

variable (hash) in
/-- `MarkerPrefix::append` (L440-449). -/
def append (self : MarkerPrefix) (marker : CommitMarker) : Except ChainError MarkerPrefix := do
  let chainHash ← validateMarker hash marker self.frontier self.heads
  let (frontier, heads) ←
    adoptMarker { marker, markerOid := chainHash, chainHash } self.frontier self.heads
  return { frontier := some frontier, heads }

/-- What the streaming state keeps of a retained chain. -/
def ofChain (chain : MarkerChain) : MarkerPrefix := ⟨chain.frontier, chain.heads⟩

@[simp]
theorem chainValue_ofChain (chain : MarkerChain) : (ofChain chain).chainValue = chain.chainValue :=
  (chain.chainValue_eq).symm

@[simp]
theorem nextCommitSeq_ofChain (chain : MarkerChain) :
    (ofChain chain).nextCommitSeq = chain.nextCommitSeq := rfl

theorem append_ofChain (chain : MarkerChain) (marker : CommitMarker) :
    (ofChain chain).append hash marker = (chain.append hash marker).map ofChain := by
  unfold append MarkerChain.append MarkerChain.validate MarkerChain.adopt
  cases hvalue : validateMarker hash marker chain.frontier chain.heads with
  | error e => simp [ofChain, hvalue, bind, Except.bind, Except.map]
  | ok value =>
    have hseq := (validateMarker_eq_ok hvalue).1
    have hadopt := adoptMarker_eq ⟨marker, value, value⟩ chain.heads hseq
    simp only [ofChain, hvalue, hadopt, bind, Except.bind, pure, Except.pure, Except.map,
      MarkerChain.frontier_concat]

end MarkerPrefix

/-! ## Histories -/

/-- The byte strings hashed for a history: each entry's transcript over the value before it. -/
def transcripts (entries : List ChainedMarker) : Set (List UInt8) :=
  {bytes | ∃ earlier entry, earlier ++ [entry] <+: entries ∧
    entry.marker.transcript (lastValue earlier) = .ok bytes}

variable (hash) in
/-- Every entry carries the hash of its transcript, and the sequence counts from one. -/
def Linked (entries : List ChainedMarker) : Prop :=
  ∀ earlier entry, earlier ++ [entry] <+: entries →
    entry.marker.chainHash hash (lastValue earlier) = .ok entry.chainHash ∧
      entry.marker.commitSeq.toNat = earlier.length + 1

theorem transcripts_mono {entries entries' : List ChainedMarker} (h : entries <+: entries') :
    transcripts entries ⊆ transcripts entries' := by
  rintro bytes ⟨earlier, entry, hfront, hbytes⟩
  exact ⟨earlier, entry, hfront.trans h, hbytes⟩

namespace Linked

theorem nil : Linked hash [] := by
  intro earlier entry h
  simp at h

variable {entries : List ChainedMarker}

theorem mono {entries' : List ChainedMarker} (h : Linked hash entries')
    (hfront : entries <+: entries') : Linked hash entries :=
  fun earlier entry hentry => h earlier entry (hentry.trans hfront)

theorem last {entry : ChainedMarker} (h : Linked hash (entries ++ [entry])) :
    entry.marker.chainHash hash (lastValue entries) = .ok entry.chainHash ∧
      entry.marker.commitSeq.toNat = entries.length + 1 :=
  h entries entry (prefix_refl _)

/-- The next sequence number of a linked history, if there is one, counts its entries. -/
theorem next_toNat {chain : MarkerChain} (h : Linked hash chain.entries) {seq : CommitSeq}
    (hseq : chain.nextCommitSeq = .ok seq) : seq.toNat = chain.entries.length + 1 := by
  obtain ⟨entries, heads⟩ := chain
  unfold MarkerChain.nextCommitSeq at hseq
  rcases eq_nil_or_concat' entries with rfl | ⟨earlier, entry, rfl⟩
  · obtain rfl := ok.inj hseq
    rfl
  · have hlast := h.last.2
    simp only [MarkerChain.frontier_concat, nextCommitSeq, checkedSuccessor,
      MarkerFrontier.from] at hseq
    by_cases hmax : entry.marker.commitSeq = BitVec.allOnes 64
    · rw [if_pos hmax] at hseq
      cases hseq
    · rw [if_neg hmax] at hseq
      obtain rfl := ok.inj hseq
      have hne : entry.marker.commitSeq.toNat ≠ 2 ^ 64 - 1 := by
        intro heq
        apply hmax
        apply BitVec.eq_of_toNat_eq
        rw [heq, BitVec.toNat_allOnes]
      have hlt := entry.marker.commitSeq.isLt
      rw [length_append, length_singleton, ← hlast]
      rw [BitVec.toNat_add, show (1 : CommitSeq).toNat = 1 from rfl]
      omega

/-- A validated marker extends a linked history. -/
theorem append {chain : MarkerChain} (h : Linked hash chain.entries) {marker : CommitMarker}
    {chained : ChainedMarker} (hvalid : chain.validate hash marker = .ok chained) :
    Linked hash (chain.entries ++ [chained]) := by
  obtain ⟨rfl, -, hseq, hhash⟩ := MarkerChain.validate_eq_ok hvalid
  intro earlier entry hfront
  rcases prefix_concat_iff.mp hfront with heq | hold
  · obtain ⟨rfl, hlast⟩ := append_inj' heq rfl
    obtain rfl := singleton_injective hlast
    exact ⟨hhash, h.next_toNat hseq⟩
  · exact h earlier entry hold

/-- Histories of one length that end in one chain value are equal, if no two of the transcripts
behind them collide. -/
theorem markers_eq {entries' : List ChainedMarker} (h : Linked hash entries)
    (h' : Linked hash entries') (hlen : entries.length = entries'.length)
    (hvalue : lastValue entries = lastValue entries')
    (hinj : Set.InjOn hash (transcripts entries ∪ transcripts entries')) :
    entries.map ChainedMarker.marker = entries'.map ChainedMarker.marker := by
  induction entries using reverseRecOn generalizing entries' with
  | nil =>
    obtain rfl := length_eq_zero_iff.mp hlen.symm
    rfl
  | append_singleton earlier entry ih =>
    rcases eq_nil_or_concat' entries' with rfl | ⟨earlier', entry', rfl⟩
    · simp at hlen
    · simp only [lastValue_concat] at hvalue
      have hhash := h.last.1
      have hhash' := h'.last.1
      simp only [CommitMarker.chainHash, bind_eq_ok] at hhash hhash'
      obtain ⟨bytes, hbytes, hvalue₁⟩ := hhash
      obtain ⟨bytes', hbytes', hvalue₂⟩ := hhash'
      have hsame : hash bytes = hash bytes' := by
        rw [ok.inj hvalue₁, ok.inj hvalue₂, hvalue]
      have hmem : bytes ∈ transcripts (earlier ++ [entry]) :=
        ⟨earlier, entry, prefix_refl _, hbytes⟩
      have hmem' : bytes' ∈ transcripts (earlier' ++ [entry']) :=
        ⟨earlier', entry', prefix_refl _, hbytes'⟩
      obtain rfl := hinj (.inl hmem) (.inr hmem') hsame
      obtain ⟨hmarker, hprior⟩ := transcript_inj hbytes hbytes'
      have hearlier := ih (h.mono (prefix_append _ _)) (h'.mono (prefix_append _ _))
        (by simpa using hlen) hprior
        (hinj.mono (Set.union_subset_union (transcripts_mono (prefix_append _ _))
          (transcripts_mono (prefix_append _ _))))
      simp only [map_append, map_cons, map_nil, hearlier, hmarker]

end Linked

end FrankenGraph.Chronicle

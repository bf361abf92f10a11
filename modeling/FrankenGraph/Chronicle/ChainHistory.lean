import FrankenGraph.Chronicle.Chain

/-!
# Chains and the histories they accept

Model of `MarkerChain::from_entries` in `crates/fgdb-chronicle/src/marker.rs` (L586-610), and of
`append` as a call on a state that keeps what the call left in it when the call fails.

Results:
* `appendInPlace_eq`: a refused append changes neither the retained nor the streaming state
* `fromEntries_eq_ok`: stored entries are accepted when appending their markers gives them back
* `Sound.append`, `Sound.appendAll`: what one append and a run of appends keep
* `marker_chain_history`: the laws of every accepted chain
-/

namespace FrankenGraph.Chronicle

open List Except

variable (hash : List UInt8 → Digest)

/-- `ChainVerifyCause` (L351-357). -/
inductive ChainVerifyCause
  | structural (cause : ChainError)
  | derivedValueMismatch

/-- `ChainVerifyFailure` (L344-347). -/
structure ChainVerifyFailure where
  commitSeq : CommitSeq
  cause : ChainVerifyCause

/-- The loop body of `from_entries` (L588-608). -/
def MarkerChain.replayEntry (rebuilt : MarkerChain) (entry : ChainedMarker) :
    Except ChainVerifyFailure MarkerChain :=
  match rebuilt.validate hash entry.marker with
  | .error cause => .error ⟨entry.marker.commitSeq, .structural cause⟩
  | .ok chained =>
    if chained.chainHash ≠ entry.chainHash ∨ chained.markerOid ≠ entry.markerOid then
      .error ⟨entry.marker.commitSeq, .derivedValueMismatch⟩
    else
      match rebuilt.adopt chained with
      | .error cause => .error ⟨entry.marker.commitSeq, .structural cause⟩
      | .ok rebuilt => .ok rebuilt

/-- `MarkerChain::from_entries` (L586-608). -/
def MarkerChain.fromEntries (entries : List ChainedMarker) :
    Except ChainVerifyFailure MarkerChain :=
  entries.foldlM (MarkerChain.replayEntry hash) .new

/-- `MarkerChain::head` (L620-622). -/
def MarkerChain.head (self : MarkerChain) (graph : GraphId) (branch : BranchId) :
    Option MarkerRef :=
  branchHead self.heads graph branch

/-- `adopt_marker` (L520-546), with the heads it leaves. -/
def adoptInPlace (chained : ChainedMarker) (frontier : Option MarkerFrontier) (heads : Heads) :
    Except ChainError MarkerFrontier × Heads :=
  match nextCommitSeq frontier with
  | .error e => (.error e, heads)
  | .ok expected =>
    if chained.marker.commitSeq ≠ expected then
      (.error (.nonContiguousCommitSeq expected chained.marker.commitSeq), heads)
    else
      (.ok (.from chained), chained.marker.headUpdates.foldl
        (advanceHead ⟨chained.markerOid, chained.marker.commitSeq⟩) heads)

/-- `MarkerChain::append` (L627-630), with the chain it leaves. -/
def MarkerChain.appendInPlace (self : MarkerChain) (marker : CommitMarker) :
    Except ChainError Unit × MarkerChain :=
  match self.validate hash marker with
  | .error e => (.error e, self)
  | .ok chained =>
    match adoptInPlace chained self.frontier self.heads with
    | (.error e, heads) => (.error e, { self with heads })
    | (.ok _, heads) => (.ok (), ⟨self.entries ++ [chained], heads⟩)

/-- `MarkerPrefix::append` (L440-449), with the state it leaves. -/
def MarkerPrefix.appendInPlace (self : MarkerPrefix) (marker : CommitMarker) :
    Except ChainError Unit × MarkerPrefix :=
  match validateMarker hash marker self.frontier self.heads with
  | .error e => (.error e, self)
  | .ok value =>
    match adoptInPlace ⟨marker, value, value⟩ self.frontier self.heads with
    | (.error e, heads) => (.error e, { self with heads })
    | (.ok frontier, heads) => (.ok (), ⟨some frontier, heads⟩)

/-- A call whose refusal leaves the state as it was. -/
def settle {σ : Type} (before : σ) : Except ChainError σ → Except ChainError Unit × σ
  | .ok after => (.ok (), after)
  | .error e => (.error e, before)

variable {hash}

theorem adoptInPlace_eq (chained : ChainedMarker) {frontier : Option MarkerFrontier} (heads : Heads)
    (h : nextCommitSeq frontier = .ok chained.marker.commitSeq) :
    adoptInPlace chained frontier heads = (.ok (.from chained), chained.marker.headUpdates.foldl
      (advanceHead ⟨chained.markerOid, chained.marker.commitSeq⟩) heads) := by
  simp [adoptInPlace, h]

theorem MarkerChain.appendInPlace_eq (self : MarkerChain) (marker : CommitMarker) :
    self.appendInPlace hash marker = settle self (self.append hash marker) := by
  unfold appendInPlace append
  cases hvalid : self.validate hash marker with
  | error e => rfl
  | ok chained =>
    obtain ⟨hmarker, -, hseq, -⟩ := validate_eq_ok hvalid
    rw [← hmarker] at hseq
    dsimp only
    rw [adoptInPlace_eq chained self.heads hseq]
    change _ = settle self (self.adopt chained)
    rw [adopt, adoptMarker_eq chained self.heads hseq]
    rfl

theorem MarkerPrefix.appendInPlace_eq (self : MarkerPrefix) (marker : CommitMarker) :
    self.appendInPlace hash marker = settle self (self.append hash marker) := by
  unfold appendInPlace append
  cases hvalue : validateMarker hash marker self.frontier self.heads with
  | error e => rfl
  | ok value =>
    have hseq := (validateMarker_eq_ok hvalue).1
    dsimp only
    rw [adoptInPlace_eq ⟨marker, value, value⟩ self.heads hseq]
    change _ = settle self (adoptMarker ⟨marker, value, value⟩ self.frontier self.heads >>= _)
    rw [adoptMarker_eq ⟨marker, value, value⟩ self.heads hseq]
    rfl

/-! ## What an append keeps -/

/-- The marker updates the head of a branch. -/
def CommitMarker.updates (self : CommitMarker) (graph : GraphId) (branch : BranchId) : Bool :=
  self.headUpdates.any fun update => update.graph == graph && update.branch == branch

/-- The last entry that updates the head of a branch. -/
def lastHead (entries : List ChainedMarker) (graph : GraphId) (branch : BranchId) :
    Option MarkerRef :=
  (entries.reverse.find? fun entry => entry.marker.updates graph branch).map fun entry =>
    ⟨entry.markerOid, entry.marker.commitSeq⟩

variable (hash) in
/-- The laws of a chain: its entries are linked, their commands increase, and a head is the last entry
that updates its branch. -/
structure Sound (chain : MarkerChain) : Prop where
  linked : Linked hash chain.entries
  increasing : chain.entries.Pairwise fun first second =>
    first.marker.logicalCommandSeq < second.marker.logicalCommandSeq
  heads : ∀ graph branch, chain.head graph branch = lastHead chain.entries graph branch

theorem branchHead_advanceHead (newHead : MarkerRef) (heads : Heads) (update : HeadUpdate)
    (graph : GraphId) (branch : BranchId) :
    branchHead (advanceHead newHead heads update) graph branch =
      if update.graph == graph && update.branch == branch then some newHead
      else branchHead heads graph branch := by
  induction heads with
  | nil =>
    by_cases h : update.graph = graph ∧ update.branch = branch
    · simp [advanceHead, branchHead, h]
    · simp [advanceHead, branchHead, find?, h]
  | cons head heads ih =>
    unfold branchHead at ih ⊢
    rw [advanceHead]
    split
    · next hsame =>
      obtain ⟨hgraph, hbranch⟩ : head.1.1 = update.graph ∧ head.1.2 = update.branch := by
        simpa using hsame
      rw [find?_cons, find?_cons, hgraph, hbranch]
      split <;> simp_all
    · next hother =>
      rw [find?_cons, find?_cons]
      split
      · next hhead =>
        have hne : ¬ (update.graph == graph && update.branch == branch) = true := by
          intro hupdate
          simp only [Bool.and_eq_true, beq_iff_eq] at hhead hupdate hother
          exact hother ⟨hhead.1.trans hupdate.1.symm, hhead.2.trans hupdate.2.symm⟩
        rw [if_neg hne]
      · exact ih

theorem branchHead_advance (newHead : MarkerRef) (updates : List HeadUpdate) (heads : Heads)
    (graph : GraphId) (branch : BranchId) :
    branchHead (updates.foldl (advanceHead newHead) heads) graph branch =
      if updates.any fun update => update.graph == graph && update.branch == branch
      then some newHead else branchHead heads graph branch := by
  induction updates generalizing heads with
  | nil => rfl
  | cons update updates ih =>
    rw [foldl_cons, ih, branchHead_advanceHead, any_cons]
    cases update.graph == graph && update.branch == branch <;> simp

/-- An admitted command comes after the last one. -/
theorem validateMarker_command {marker : CommitMarker} {last : MarkerFrontier} {heads : Heads}
    {value : Digest} (h : validateMarker hash marker (some last) heads = .ok value) :
    last.logicalCommandSeq < marker.logicalCommandSeq := by
  simp only [validateMarker, bind_eq_ok] at h
  obtain ⟨_, _, _, _, _, hcommand, _⟩ := h
  simp only [checkCommandSeq, bind_eq_ok, refuse_eq_ok, decide_eq_false_iff_not] at hcommand
  obtain ⟨_, _, hlt⟩ := hcommand
  exact BitVec.not_le.mp hlt

/-- An accepted append adds one entry, with the marker and the heads it gives. -/
theorem MarkerChain.append_eq_ok {chain chain' : MarkerChain} {marker : CommitMarker}
    (h : chain.append hash marker = .ok chain') :
    ∃ chained, chain.validate hash marker = .ok chained ∧ chained.marker = marker ∧
      chain.adopt chained = .ok chain' ∧ chain'.entries = chain.entries ++ [chained] ∧
      chain'.heads = marker.headUpdates.foldl
        (advanceHead ⟨chained.markerOid, marker.commitSeq⟩) chain.heads := by
  obtain ⟨chained, hvalid, hadopt⟩ := bind_eq_ok.mp h
  obtain ⟨rfl, -, hseq, -⟩ := validate_eq_ok hvalid
  refine ⟨chained, hvalid, rfl, hadopt, ?_⟩
  rw [adopt, adoptMarker_eq chained chain.heads hseq] at hadopt
  obtain rfl := ok.inj hadopt
  exact ⟨rfl, rfl⟩

namespace Sound

theorem new : Sound hash .new where
  linked := .nil
  increasing := .nil
  heads := fun _ _ => rfl

theorem append {chain chain' : MarkerChain} (h : Sound hash chain) {marker : CommitMarker}
    (happend : chain.append hash marker = .ok chain') : Sound hash chain' := by
  obtain ⟨chained, hvalid, rfl, -, hentries, hheads⟩ := MarkerChain.append_eq_ok happend
  refine ⟨hentries ▸ h.linked.append hvalid, ?_, fun graph branch => ?_⟩
  · rw [hentries, pairwise_append]
    refine ⟨h.increasing, pairwise_singleton _ _, fun entry hentry other hother => ?_⟩
    obtain rfl := mem_singleton.mp hother
    -- the new command comes after the last entry's, and that one after the others'
    obtain ⟨entries, heads⟩ := chain
    rcases eq_nil_or_concat' entries with rfl | ⟨earlier, last, rfl⟩
    · cases hentry
    · obtain ⟨value, hvalue, hchained⟩ := bind_eq_ok.mp hvalid
      rw [MarkerChain.frontier_concat] at hvalue
      have hlast := validateMarker_command hvalue
      rcases mem_append.mp hentry with hearlier | hmem
      · have hbefore := (pairwise_append.mp h.increasing).2.2 entry hearlier last
          mem_cons_self
        exact BitVec.lt_trans hbefore hlast
      · rw [mem_singleton.mp hmem]
        exact hlast
  · have hold := h.heads graph branch
    unfold MarkerChain.head at hold ⊢
    rw [hheads, branchHead_advance, hold, hentries]
    unfold lastHead
    rw [reverse_append, reverse_singleton, singleton_append, find?_cons]
    change (if chained.marker.updates graph branch = true then _ else _) = _
    cases chained.marker.updates graph branch with
    | true => rfl
    | false => rfl

theorem appendAll {markers : List CommitMarker} {chain chain' : MarkerChain}
    (h : Sound hash chain) (hrun : markers.foldlM (MarkerChain.append hash) chain = .ok chain') :
    Sound hash chain' :=
  foldlM_keeps (fun _ chain => Sound hash chain) (fun _ _ _ _ h happend => h.append happend) h hrun

end Sound

/-! ## Replay -/

theorem MarkerChain.replayEntry_eq_ok {chain chain' : MarkerChain} {entry : ChainedMarker} :
    chain.replayEntry hash entry = .ok chain' ↔
      chain.append hash entry.marker = .ok chain' ∧ chain'.entries = chain.entries ++ [entry] := by
  unfold replayEntry
  constructor
  · intro h
    split at h
    · cases h
    next chained hvalid =>
    split at h
    · cases h
    next hsame =>
    split at h
    · cases h
    next rebuilt hadopt =>
    obtain rfl := ok.inj h
    have happend : chain.append hash entry.marker = .ok rebuilt :=
      bind_eq_ok.mpr ⟨chained, hvalid, hadopt⟩
    obtain ⟨chained', hvalid', hmarker, -, hentries, -⟩ := append_eq_ok happend
    obtain rfl := ok.inj (hvalid'.symm.trans hvalid)
    rw [not_or, not_not, not_not] at hsame
    refine ⟨happend, hentries.trans ?_⟩
    obtain ⟨marker, oid, value⟩ := chained'
    obtain ⟨marker', oid', value'⟩ := entry
    simp_all
  · rintro ⟨happend, hentry⟩
    obtain ⟨chained, hvalid, -, hadopt, hentries, -⟩ := append_eq_ok happend
    obtain rfl : chained = entry := by simpa using hentries.symm.trans hentry
    rw [hvalid]
    simp [hadopt]

/-- The entries a run of appends adds. -/
theorem MarkerChain.appendAll_entries {markers : List CommitMarker} {chain chain' : MarkerChain}
    (hrun : markers.foldlM (MarkerChain.append hash) chain = .ok chain') :
    ∃ added, chain'.entries = chain.entries ++ added ∧
      added.map ChainedMarker.marker = markers := by
  induction markers generalizing chain with
  | nil => exact ⟨[], by simp [ok.inj hrun]⟩
  | cons marker markers ih =>
    rw [foldlM_cons] at hrun
    obtain ⟨next, happend, hrun⟩ := bind_eq_ok.mp hrun
    obtain ⟨chained, -, hmarker, -, hentries, -⟩ := append_eq_ok happend
    obtain ⟨added, hadded, hmarkers⟩ := ih hrun
    exact ⟨chained :: added, by simp [hadded, hentries], by simp [hmarker, hmarkers]⟩

theorem MarkerChain.replay_eq_ok {entries : List ChainedMarker} {chain chain' : MarkerChain} :
    entries.foldlM (MarkerChain.replayEntry hash) chain = .ok chain' ↔
      (entries.map ChainedMarker.marker).foldlM (MarkerChain.append hash) chain = .ok chain' ∧
        chain'.entries = chain.entries ++ entries := by
  induction entries generalizing chain with
  | nil =>
    rw [append_nil]
    exact ⟨fun h => ⟨congrArg ok (ok.inj h), ok.inj h ▸ rfl⟩, fun h => congrArg ok (ok.inj h.1)⟩
  | cons entry entries ih =>
    rw [foldlM_cons, map_cons, foldlM_cons]
    constructor
    · intro h
      obtain ⟨next, hentry, h⟩ := bind_eq_ok.mp h
      obtain ⟨happend, hnext⟩ := replayEntry_eq_ok.mp hentry
      obtain ⟨hrun, hentries⟩ := ih.mp h
      exact ⟨bind_eq_ok.mpr ⟨next, happend, hrun⟩, by rw [hentries, hnext]; simp⟩
    · rintro ⟨hrun, hentries⟩
      obtain ⟨next, happend, hrest⟩ := bind_eq_ok.mp hrun
      obtain ⟨chained, -, -, -, hnext, -⟩ := append_eq_ok happend
      obtain ⟨added, hadded, -⟩ := appendAll_entries hrest
      -- the final list fixes the entry this step added
      rw [hadded, hnext, append_assoc, append_cancel_left_eq, singleton_append,
        cons.injEq] at hentries
      obtain ⟨rfl, rfl⟩ := hentries
      exact bind_eq_ok.mpr ⟨next, replayEntry_eq_ok.mpr ⟨happend, hnext⟩, ih.mpr ⟨hrest, hadded⟩⟩

theorem MarkerChain.fromEntries_eq_ok {entries : List ChainedMarker} {chain : MarkerChain} :
    fromEntries hash entries = .ok chain ↔
      (entries.map ChainedMarker.marker).foldlM (MarkerChain.append hash) .new = .ok chain ∧
        chain.entries = entries :=
  replay_eq_ok

/-- The streaming state follows a run of appends. -/
theorem MarkerPrefix.appendAll_ofChain (markers : List CommitMarker) (chain : MarkerChain) :
    markers.foldlM (MarkerPrefix.append hash) (ofChain chain) =
      (markers.foldlM (MarkerChain.append hash) chain).map ofChain := by
  induction markers generalizing chain with
  | nil => rfl
  | cons marker markers ih =>
    rw [foldlM_cons, foldlM_cons, append_ofChain]
    cases chain.append hash marker with
    | error e => rfl
    | ok next => exact ih next

/-- A stored list of entries is accepted exactly when appending its markers to the empty chain gives
it; an accepted chain counts its commits from one, its commands increase, and each head is the last
marker that updates its branch; a refused append changes nothing; and the streaming state accepts and
refuses the same markers and ends at the same frontier and chain value. -/
theorem marker_chain_history : (∀ entries chain, MarkerChain.fromEntries hash entries = .ok chain ↔
      (entries.map ChainedMarker.marker).foldlM (MarkerChain.append hash) .new = .ok chain ∧
        chain.entries = entries) ∧
    (∀ (markers : List CommitMarker) chain,
      markers.foldlM (MarkerChain.append hash) .new = .ok chain →
        (∀ i entry, chain.entries[i]? = some entry → entry.marker.commitSeq.toNat = i + 1) ∧
        (chain.entries.Pairwise fun first second =>
          first.marker.logicalCommandSeq < second.marker.logicalCommandSeq) ∧
        ∀ graph branch, chain.head graph branch = lastHead chain.entries graph branch) ∧
    (∀ (chain : MarkerChain) marker,
      chain.appendInPlace hash marker = settle chain (chain.append hash marker)) ∧
    (∀ (state : MarkerPrefix) marker,
      state.appendInPlace hash marker = settle state (state.append hash marker)) ∧
    ∀ markers : List CommitMarker, SameOutcome (fun (state : MarkerPrefix) (chain : MarkerChain) =>
          state.frontier = chain.frontier ∧ state.chainValue = chain.chainValue)
        (markers.foldlM (MarkerPrefix.append hash) .new)
        (markers.foldlM (MarkerChain.append hash) .new) := by
  refine ⟨fun entries chain => MarkerChain.fromEntries_eq_ok, fun markers chain hrun => ?_,
    MarkerChain.appendInPlace_eq, MarkerPrefix.appendInPlace_eq, fun markers => ?_⟩
  · have hsound := Sound.new.appendAll hrun
    refine ⟨fun i entry hentry => ?_, hsound.increasing, hsound.heads⟩
    have hlt := (List.getElem?_eq_some_iff.mp hentry).1
    have htake : chain.entries.take (i + 1) = chain.entries.take i ++ [entry] := by
      rw [List.take_add_one, hentry]
      rfl
    have hfront : chain.entries.take i ++ [entry] <+: chain.entries :=
      htake ▸ List.take_prefix _ _
    have hseq := (hsound.linked _ entry hfront).2
    rwa [List.length_take, min_eq_left hlt.le] at hseq
  · have hfollow := @MarkerPrefix.appendAll_ofChain hash markers .new
    change SameOutcome _ (markers.foldlM (MarkerPrefix.append hash) (.ofChain .new)) _
    rw [hfollow]
    cases markers.foldlM (MarkerChain.append hash) .new with
    | error e => rfl
    | ok chain => exact ⟨rfl, MarkerPrefix.chainValue_ofChain chain⟩

end FrankenGraph.Chronicle

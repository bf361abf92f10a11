import FrankenGraph.Order.RefineSnapshot

/-!
# Whole steps refine the protocol

`receive`, `transition` and `step` put together from the methods they call. A step
that is admitted and returns a publication takes a machine that represents a view
to one that represents a later view, and everything it would release holds there
(`step_spec`). Without `requires_write` the persistent state is unchanged.
-/

namespace FrankenGraph.Order

open Protocol Raft Refines

variable {C : Type} [DecidableEq C] {cfg : Configuration} {g : Ghost C} {r : Raft C}
  {output : Output C}

/-! ## Messages -/

omit [DecidableEq C] in
theorem receive_refines (h : Good cfg g (r, output)) {env : Envelope C} (hmsg : MsgInv g env)
    (hto : env.recipient = r.id) {s : Stepped C} (hok : r.receive env output = .ok s) :
    Refines cfg g r s := by
  unfold receive at hok
  -- a higher term is followed first
  have hfollow : Refines cfg g r
      (if r.state.term < env.message.term then r.follow env.message.term else r, output) := by
    split_ifs
    · exact follow_refines h _
    · exact refl h
  obtain ⟨hframe, g₁, hev, hg₁⟩ := hfollow
  refine after hframe hev ?_
  replace hmsg := hmsg.mono hev.le
  dsimp only at hok
  replace hto : env.recipient =
      (if r.state.term < env.message.term then r.follow env.message.term else r).id :=
    hto.trans hframe.id.symm
  generalize (if r.state.term < env.message.term then r.follow env.message.term else r) = r₁ at *
  unfold MsgInv at hmsg
  split at hok
  case h_1 => cases hok; exact refl (hg₁.emit (by trivial))
  case h_2 => exact preVoteReply_refines hg₁ hok
  case h_3 => cases hok; exact quorumProbe_refines hg₁ _ _ _
  case h_4 => cases hok; exact quorumReply_refines hg₁ _ _ _
  case h_5 => exact timeoutNow_refines hg₁ hok
  case h_6 heq =>
    rw [heq] at hmsg
    obtain ⟨L, hstood, hindex, hlast⟩ := hmsg
    cases hok; exact receiveRequestVote_refines hg₁ hstood hindex hlast
  case h_7 heq => rw [heq, hto] at hmsg; exact receiveVote_refines hg₁ hmsg hok
  case h_8 heq => rw [heq, hto] at hmsg; cases hok; exact receiveAppend_refines hg₁ hmsg
  case h_9 heq => rw [heq] at hmsg; exact receiveAppended_refines hg₁ hmsg hok
  case h_10 heq => rw [heq, hto] at hmsg; cases hok; exact offerSnapshot_refines hg₁ hmsg
  case h_11 heq => rw [heq] at hmsg; exact receiveSnapshotInstalled_refines hg₁ hmsg hok

/-! ## Admission -/

/-- What admission established about an event. -/
def Admitted (r : Raft C) : Event C → Prop
  | .transferLeadership _ => r.role = .leader
  | .propose _ => r.role = .leader
  | .proposeBatch _ => r.role = .leader
  | .compact cut => r.state.snapshot = some cut ∨
      cut.index ≤ r.state.commitIndex ∧ r.state.termAt cut.index = some cut.term
  | .snapshotReady _ => ∀ pending, r.incomingSnapshot = some pending →
      pending.term = r.state.term
  | .receive env => env.recipient = r.id
  | _ => True

variable {ev : Event C}

theorem validateEvent_admitted {u : Unit} (h : r.validateEvent ev = .ok u) : Admitted r ev := by
  unfold validateEvent at h
  obtain ⟨_, hlead, hev⟩ := bind_eq_ok.mp h
  cases ev with
  | transferLeadership target =>
    obtain ⟨_, hrole, _⟩ := bind_eq_ok.mp hlead
    simpa [Admitted] using hrole
  | propose command | proposeBatch command =>
    obtain ⟨_, hrole, _⟩ := bind_eq_ok.mp hev
    simpa [Admitted] using hrole
  | compact cut =>
    obtain ⟨_, _, hcut⟩ := bind_eq_ok.mp hev
    rw [refuse_eq_ok, decide_eq_false_iff_not] at hcut
    by_cases hsame : r.state.snapshot = some cut
    · exact Or.inl hsame
    · right
      by_contra hnot
      exact hcut ⟨hsame, by by_contra hno; apply hnot; push Not at hno; exact hno.2⟩
  | snapshotReady id =>
    intro pending hpending
    simp [hpending] at hev
    exact hev.2.1
  | receive env =>
    obtain ⟨_, henv, _⟩ := bind_eq_ok.mp hev
    unfold validateEnvelope at henv
    obtain ⟨_, _, henv⟩ := bind_eq_ok.mp henv
    obtain ⟨_, _, henv⟩ := bind_eq_ok.mp henv
    obtain ⟨_, hto, _⟩ := bind_eq_ok.mp henv
    rw [refuse_eq_ok, decide_eq_false_iff_not] at hto
    by_contra hne
    exact hto (Or.inl hne)
  | _ => trivial

/-! ## Steps -/

omit [DecidableEq C] in
theorem transition_refines (h : Good cfg g (r, output)) (had : Admitted r ev)
    (hmsg : ∀ env, ev = .receive env → MsgInv g env) {s : Stepped C}
    (hok : r.transition ev output = .ok s) : Refines cfg g r s := by
  unfold transition at hok
  cases ev with
  | electionTimeout => exact campaign_refines h hok
  | livenessTimeout =>
    have hstop : Refines cfg g r ({ r with handoff := none }, output) :=
      same h rfl rfl le_rfl (fun _ hp => hp) rfl
    exact hstop.bind fun g₁ hg₁ => livenessTimeout_refines hg₁ hok
  | transferLeadership target => exact startHandoff_refines h had hok
  | abortLeadershipTransfer id =>
    cases hok
    exact same h rfl rfl le_rfl (fun _ hp => hp) rfl
  | heartbeat =>
    dsimp only at hok
    split_ifs at hok with hr
    · obtain ⟨⟨r₁, output₁⟩, hsend, hprobe⟩ := bind_eq_ok.mp hok
      cases hprobe
      exact (broadcast_leads h hr hsend).refines.bind fun g₁ hg₁ =>
        refl (retryQuorumProbe_good hg₁)
    · cases hok; exact refl h
  | propose command | proposeBatch command => exact appendProposals_refines h had hok
  | receive env => exact receive_refines h (hmsg env rfl) had hok
  | compact cut => cases hok; exact compact_refines h had
  | snapshotReady id => exact installSnapshot_refines h had hok
  | snapshotFailed id =>
    cases hok
    exact same h rfl rfl le_rfl (fun _ hp => by cases hp) rfl

/-- The machine `step` moves: its transition cannot be resumed if it fails. -/
def Raft.fenced (r : Raft C) (generation : ℕ) : Raft C :=
  { r with logChanged := false, poisoned := true, generation }

omit [DecidableEq C] in
theorem available_pending {u : Unit} (h : r.available = .ok u) : r.pending = none := by
  unfold available at h
  split_ifs at h with _ hp
  simpa using hp

variable {r' : Raft C}

/-- A step that returns a publication was admitted and ran to its end. -/
theorem step_ok {p : Persistence C} (hok : r.step ev = (.ok p, r')) :
    r.pending = none ∧ Admitted r ev ∧ ∃ generation moved collected,
      (r.fenced generation).transition ev r.freshOutput = .ok (moved, collected) ∧
      r' = { (moved.driveHandoff collected (retryHandoff ev)).1 with
        pending := some (p.id, r.finishOutput (moved.driveHandoff collected
          (retryHandoff ev)).1 (moved.driveHandoff collected (retryHandoff ev)).2)
        poisoned := false } ∧
      p.requiresWrite = r.requiresWrite (moved.driveHandoff collected
        (retryHandoff ev)).1 := by
  unfold step at hok
  split at hok
  · cases hok
  rename_i hvalid
  obtain ⟨_, havail, hvalid⟩ := bind_eq_ok.mp hvalid
  have hpending := available_pending havail
  refine ⟨hpending, validateEvent_admitted hvalid, ?_⟩
  split at hok
  · cases hok
  rename_i generation _
  dsimp only at hok
  split at hok
  · cases hok
  rename_i moved collected htrans
  cases hok
  exact ⟨generation, moved, collected, htrans, rfl, rfl⟩

/-- A failed step keeps the persistent state and everything represented. -/
theorem step_error {error : Error} (hok : r.step ev = (.error error, r')) :
    r' = r ∨ r.pending = none ∧ ∃ generation, r' = r.fenced generation := by
  unfold step at hok
  split at hok
  · cases hok; exact Or.inl rfl
  rename_i hvalid
  obtain ⟨_, havail, _⟩ := bind_eq_ok.mp hvalid
  have hpending := available_pending havail
  split at hok
  · cases hok; exact Or.inl rfl
  rename_i generation _
  dsimp only at hok
  split at hok
  · cases hok; exact Or.inr ⟨hpending, generation, rfl⟩
  · cases hok

/-- A state that holds a record at or below its commit index. -/
def Holds (st : PersistentState C) (record : Committed C) : Prop :=
  record.index ≤ st.commitIndex ∧ st.entryAt record.index = some record.entry

omit [DecidableEq C] in
theorem holds_of_mem_committedRange {record : Committed C} {after : ℕ}
    (h : record ∈ r.committedRange after) : Holds r.state record := by
  obtain ⟨k, hk⟩ := List.mem_iff_getElem?.mp h
  simp only [committedRange, List.getElem?_mapIdx, List.getElem?_drop, List.getElem?_take,
    Option.map_eq_some_iff] at hk
  obtain ⟨e, he, rfl⟩ := hk
  split_ifs at he with hlt
  refine ⟨by dsimp only; omega, ?_⟩
  unfold PersistentState.entryAt
  dsimp only
  rw [if_neg (by omega), ← he]
  congr 1
  omega

/-- What a step leaves for `persisted` to release. -/
structure OutputInv (g : Ghost C) (r : Raft C) (out : Output C) : Prop where
  sent : ∀ env ∈ out.messages, MsgInv g env
  committed : ∀ record ∈ out.committed, Holds r.state record

/-- What a step of `r` that returned publication `p` did. -/
structure StepSpec (cfg : Configuration) (g : Ghost C) (r r' : Raft C) (p : Persistence C) :
    Prop where
  id : r'.id = r.id
  commit : r.state.commitIndex ≤ r'.state.commitIndex
  pending : ∃ id out, r'.pending = some (id, out)
  unchanged : p.requiresWrite = false → r'.state = r.state
  refines : ∃ g', Evolves cfg r.id g g' ∧ GhostInv cfg g' ∧ NodeInv cfg g' r' ∧
    ∀ id out, r'.pending = some (id, out) → OutputInv g' r' out

omit [DecidableEq C] in
/-- The write flag covers every field of the persistent state. -/
theorem Frame.state_eq {s : Raft C} {generation : ℕ} (h : Frame (r.fenced generation) s)
    (hwrite : r.requiresWrite s = false) : s.state = r.state := by
  simp only [requiresWrite, Bool.or_eq_false_iff, decide_eq_false_iff_not, not_not,
    Prod.mk.injEq] at hwrite
  obtain ⟨⟨_, hlog⟩, hterm, hvote, hcommit⟩ := hwrite
  obtain ⟨_, hentries, hsnap⟩ := h.kept hlog
  exact PersistentState.ext h.configuration hterm.symm hvote.symm hcommit.symm hsnap hentries

/-- **A step refines the protocol.** -/
theorem step_spec (hinv : GhostInv cfg g) (hnode : NodeInv cfg g r)
    (hmsg : ∀ env, ev = .receive env → MsgInv g env) {p : Persistence C}
    (hok : r.step ev = (.ok p, r')) : StepSpec cfg g r r' p := by
  obtain ⟨_, had, generation, moved, collected, htrans, rfl, hw⟩ := step_ok hok
  have hgood : Good cfg g (r.fenced generation, r.freshOutput) :=
    ⟨hinv, hnode.congr rfl le_rfl (fun _ hp => hp), fun env henv => by cases henv⟩
  have had' : Admitted (r.fenced generation) ev := by cases ev <;> exact had
  have href := (transition_refines hgood had' hmsg htrans).bind fun g₁ hg₁ =>
    driveHandoff_refines hg₁ (retryHandoff ev)
  generalize moved.driveHandoff collected (retryHandoff ev) = s at *
  obtain ⟨hframe, g', hev, hg'⟩ := href
  refine ⟨hframe.id, hframe.commit, ⟨_, _, rfl⟩, fun hwrite => hframe.state_eq (hw ▸ hwrite),
    g', hev, hg'.inv, hg'.node.congr rfl le_rfl (fun _ hp => hp), ?_⟩
  intro id out hpending
  cases hpending
  exact ⟨hg'.sent, fun record hrecord => holds_of_mem_committedRange hrecord⟩

end FrankenGraph.Order

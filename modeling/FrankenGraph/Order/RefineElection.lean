import FrankenGraph.Order.RefinePipeline

/-!
# Elections refine the protocol

Term changes (`follow`) are the protocol's `bump`; `campaign` is `bump`, `stand`
and a vote for oneself; `become_leader` is `elect` followed by the proposal of
the no-op, when there is room for one. Pre-votes, quorum probes and hand-offs
change volatile state only, or end in `campaign`.

Results:
* `follow_refines`, `acceptLeader_refines`, `campaign_refines`,
  `becomeLeader_refines`.
* `receiveRequestVote_refines`, `receiveVote_refines`.
-/

namespace FrankenGraph.Order

open Protocol Raft Refines View Evolves

variable {C : Type} {cfg : Configuration} {g : Ghost C} {r : Raft C} {output : Output C}

/-! ## Following -/

theorem Raft.follow_id (r : Raft C) (term : ℕ) : (r.follow term).id = r.id := by
  unfold follow; dsimp only; split_ifs <;> rfl

theorem Raft.follow_role (r : Raft C) (term : ℕ) : (r.follow term).role = .follower := by
  unfold follow; rfl

theorem Raft.follow_progress (r : Raft C) (term : ℕ) : (r.follow term).progress = ∅ := by
  unfold follow; rfl

theorem Raft.follow_votes (r : Raft C) (term : ℕ) : (r.follow term).votes = ∅ := by
  unfold follow; rfl

variable {term : ℕ}

theorem Raft.follow_state_lt (h : r.state.term < term) :
    (r.follow term).state = { r.state with term, votedFor := none } := by
  unfold follow; simp [h]

theorem Raft.follow_state_ge (h : term ≤ r.state.term) : (r.follow term).state = r.state := by
  unfold follow; simp [show ¬ r.state.term < term by omega]

theorem Raft.follow_incoming_ge (h : term ≤ r.state.term) :
    (r.follow term).incomingSnapshot = r.incomingSnapshot := by
  unfold follow; simp [show ¬ r.state.term < term by omega]

theorem Raft.follow_incoming_lt (h : r.state.term < term) :
    (r.follow term).incomingSnapshot = none := by
  unfold follow; simp [h]

theorem Raft.follow_term_le (r : Raft C) (term : ℕ) : r.state.term ≤ (r.follow term).state.term := by
  rcases Nat.lt_or_ge r.state.term term with h | h
  · rw [follow_state_lt h]; exact h.le
  · rw [follow_state_ge h]

theorem Raft.follow_term (h : r.state.term ≤ term) : (r.follow term).state.term = term := by
  rcases Nat.eq_or_lt_of_le h with h | h
  · rw [follow_state_ge h.ge, h]
  · rw [follow_state_lt h]

theorem Raft.follow_frame (r : Raft C) (term : ℕ) : Frame r (r.follow term) := by
  obtain ⟨hlog, hinit, hinc⟩ : (r.follow term).logChanged = r.logChanged ∧
      (r.follow term).initialized = r.initialized ∧
      (r.follow term).incarnation = r.incarnation := by
    unfold follow; dsimp only; split_ifs <;> exact ⟨rfl, rfl, rfl⟩
  rcases Nat.lt_or_ge r.state.term term with h | h
  · have hst := follow_state_lt h
    exact ⟨follow_id r term, by rw [hst], hinit, hinc, by rw [hst],
      fun hk => ⟨hlog ▸ hk, by rw [hst], by rw [hst]⟩⟩
  · refine .same ?_
    unfold framed
    rw [follow_id, follow_state_ge h, hinit, hinc, hlog]

variable (h : Good cfg g (r, output))
include h

/-- Entering a higher term is the protocol's `bump`. -/
theorem follow_good (hlt : r.state.term < term) :
    Evolves cfg r.id g { g with view := g.view.bump r.id term } ∧
      Good cfg { g with view := g.view.bump r.id term } (r.follow term, output) := by
  have hd := h.durable
  have hev : Evolves cfg r.id g { g with view := g.view.bump r.id term } :=
    act h.inv (.bump (by rw [hd.term]; exact hlt))
  have hst := follow_state_lt hlt
  refine ⟨hev, hev.inv h.inv, ?_, fun env henv => (h.sent env henv).mono hev.le⟩
  exact
    { durable := by
        change Durable cfg _ (r.follow term).id (r.follow term).state
        rw [follow_id, hst]
        exact
          { hd with
            term := by simp [bump]
            vote := by
              change g.view.voted r.id term = none
              cases hv : g.view.voted r.id term with
              | none => rfl
              | some c =>
                have hle := h.inv.voted_le hv
                rw [hd.term] at hle
                omega
            log := ⟨hd.log.base, hd.log.entries⟩
            commit := hd.commit.mono hev.le.view hlt.le }
      candidate := fun hc => by rw [show _ = Role.follower from follow_role r term] at hc; cases hc
      leading := fun hc => by rw [show _ = Role.follower from follow_role r term] at hc; cases hc
      incoming := fun pending hp => by
        rw [show _ = none from follow_incoming_lt hlt] at hp; cases hp }

theorem follow_refines (term : ℕ) : Refines cfg g r (r.follow term, output) := by
  rcases Nat.lt_or_ge r.state.term term with hlt | hge
  · obtain ⟨hev, hgood⟩ := follow_good h hlt
    exact ⟨follow_frame r term, _, hev, hgood⟩
  · refine ⟨follow_frame r term, g, refl _ _, h.inv, ?_, h.sent⟩
    refine h.node.passive (follow_id r term) (follow_state_ge hge) ?_ ?_ ?_
    · rw [show _ = Role.follower from follow_role r term]; simp
    · rw [show _ = Role.follower from follow_role r term]; simp
    · intro pending hp
      rw [show _ = r.incomingSnapshot from follow_incoming_ge hge] at hp
      exact ⟨hp, follow_role r term⟩

/-- A change to fields that are not represented. -/
theorem Refines.same {r' : Raft C} {output' : Output C}
    (hframed : r'.framed = r.framed) (hrep : r'.represented = r.represented)
    (hrequest : r.request ≤ r'.request)
    (hincoming : ∀ pending, r'.incomingSnapshot = some pending → r.incomingSnapshot = some pending)
    (hmessages : output'.messages = output.messages) : Refines cfg g r (r', output') :=
  ⟨.same hframed, g, Evolves.refl _ _, h.inv, h.node.congr hrep hrequest hincoming,
    by rw [show (r', output').2.messages = output.messages from hmessages]; exact h.sent⟩

theorem acceptLeader_refines (sender : MemberId) (term : ℕ) :
    Refines cfg g r (r.acceptLeader sender term output) ∧
      (r.acceptLeader sender term output).1.state = (r.follow term).state ∧
      (r.acceptLeader sender term output).1.role = .follower := by
  unfold acceptLeader
  dsimp only
  refine ⟨(follow_refines h term).bind fun g₁ hg₁ => ?_, ?_, ?_⟩
  · split_ifs with hsrc
    · exact same hg₁ rfl rfl le_rfl (fun _ hp => by cases hp) rfl
    · exact same hg₁ rfl rfl le_rfl (fun _ hp => hp) rfl
  · split_ifs <;> rfl
  · split_ifs <;> exact follow_role r term

/-! ## Probes -/

theorem retryQuorumProbe_good : Good cfg g (r, r.retryQuorumProbe output) := by
  unfold retryQuorumProbe
  split
  · exact h
  · exact h.emitAll fun _ => trivial

theorem startQuorumProbe_refines : Refines cfg g r (r.startQuorumProbe output) := by
  unfold startQuorumProbe
  dsimp only
  have hstart : Refines cfg g r ({ r with liveness := { r.liveness with
      quorum := some { round := r.generation, voters := .ofList [r.id] } } },
      { output with resetElectionTimer := true }) :=
    same h rfl rfl le_rfl (fun _ hp => hp) rfl
  exact hstart.bind fun g₁ hg₁ => refl (retryQuorumProbe_good hg₁)

/-! ## Campaigns -/

omit h in
/-- A new leader tracks the other members, from the end of its log. -/
theorem freshProgress_spec (hempty : r.progress = ∅) (next : ℕ) :
    (r.freshProgress next)[r.id]? = none ∧
      ∀ (peer : MemberId) (progress : Progress), (r.freshProgress next)[peer]? = some progress →
        progress.matched = 0 ∧ progress.next = next ∧ progress.inFlight = [] := by
  unfold freshProgress
  rw [hempty]
  refine List.foldlRecOn (motive := fun t : Std.ExtTreeMap MemberId Progress compare =>
    t[r.id]? = none ∧ ∀ (peer : MemberId) (progress : Progress), t[peer]? = some progress →
      progress.matched = 0 ∧ progress.next = next ∧ progress.inFlight = []) _ _
    ⟨rfl, fun peer progress hp => by cases hp⟩ ?_
  rintro t ⟨hnone, hall⟩ a ha
  constructor
  · rw [Std.ExtTreeMap.getElem?_insert, if_neg]
    · exact hnone
    · intro heq
      exact of_decide_eq_true (List.mem_filter.mp ha).2 (Std.LawfulEqCmp.eq_of_compare heq)
  · intro peer progress hp
    rw [Std.ExtTreeMap.getElem?_insert] at hp
    split_ifs at hp
    · cases hp
      exact ⟨rfl, rfl, rfl⟩
    · exact hall peer progress hp

/-- A candidate with a quorum of votes becomes the leader of its term. -/
theorem elect_refines (hr : r.role = .candidate)
    (hc : CandidateInv g r) (hq : cfg.quorum r.votes = true) : Refines cfg g r (r.takeLead, output) := by
  have hd := h.durable
  have hcur := hd.term
  have hvotes : (rules C cfg).IsQuorum {x | g.view.voted x (g.view.cur r.id) = some r.id} := by
    refine Configuration.IsQuorum.mono ?_ (Configuration.quorum_isQuorum hq)
    intro x hx
    change g.view.voted x (g.view.cur r.id) = some r.id
    rw [hcur]; exact hc.votes x hx
  have hnone : g.view.leader (g.view.cur r.id) = none := by
    cases hl : g.view.leader (g.view.cur r.id) with
    | none => rfl
    | some c =>
      have := h.inv.leader_unique hl hvotes
      rw [← this, hcur] at hl
      exact absurd hl hc.unelected
  have hact : Act (rules C cfg) r.id g.view (g.view.elect r.id) :=
    .elect hnone (by rw [hcur]; exact hc.stood) hvotes
  have hev := act h.inv hact
  refine ⟨.same rfl, _, hev, h.lead (by simp [hr]) rfl rfl hev ?_ ?_⟩
  · exact
      { hd with
        term := hcur
        commit := hd.commit.mono hev.le.view le_rfl }
  · exact
      { leader := by
          change (g.view.elect r.id).leader r.state.term = some r.id
          simp [elect, hcur]
        acked := by
          change (g.view.elect r.id).acked r.id r.state.term = (g.view.log r.id).length
          simp [elect, hcur]
        commit := by
          -- nobody has counted anything in this term yet
          change g.view.commit r.state.term ≤ _
          rcases Nat.eq_zero_or_pos (g.view.commit r.state.term) with h0 | hpos
          · rw [h0]; exact Nat.zero_le _
          · obtain ⟨c, hl⟩ := h.inv.leader_of_mem (h.inv.commit_chosen hpos).1.lt
            rw [hcur] at hnone
            rw [hnone] at hl; cases hl
        progress := by
          intro peer progress hp
          obtain ⟨hm, -, hf⟩ := (freshProgress_spec hc.progress _).2 peer progress hp
          exact ⟨by rw [hm]; exact Nat.zero_le _, by rw [hf]; simp⟩
        request := by
          intro k q hk
          obtain ⟨c, hl⟩ := h.inv.led (t := r.state.term) hk
          rw [hcur] at hnone
          rw [hnone] at hl; cases hl
        others := (freshProgress_spec hc.progress _).1 }

theorem appendNoOp_refines (hr : r.role = .leader) :
    Refines cfg g r (r.appendNoOp, output) ∧ r.appendNoOp.role = .leader := by
  unfold appendNoOp
  split_ifs with hroom
  · exact ⟨propose_refines h hr _ (by simp) true (Or.inl rfl), hr⟩
  · exact ⟨refl h, hr⟩

variable {s : Stepped C}

theorem becomeLeader_refines (hr : r.role = .candidate)
    (hc : CandidateInv g r) (hq : cfg.quorum r.votes = true)
    (hok : r.becomeLeader output = .ok s) : Refines cfg g r s := by
  unfold becomeLeader at hok
  refine (elect_refines h hr hc hq).bind fun g₁ hg₁ => ?_
  obtain ⟨hnoop, hrole₁⟩ := appendNoOp_refines hg₁ rfl
  refine hnoop.bind fun g₂ hg₂ => ?_
  obtain ⟨hadv, hrole₂⟩ := advanceCommit_refines hg₂ hrole₁
  refine hadv.bind fun g₃ hg₃ => ?_
  cases hb : r.takeLead.appendNoOp.advanceCommit.1.broadcast output false with
  | error e => rw [hb] at hok; cases hok
  | ok t =>
    rw [hb] at hok
    refine (broadcast_leads hg₃ hrole₂ hb).refines.bind fun g₄ hg₄ => ?_
    change (if t.1.liveness.enabled = true then Except.ok (t.1.startQuorumProbe t.2)
      else Except.ok (t.1, t.2)) = Except.ok s at hok
    split_ifs at hok
    · cases hok; exact startQuorumProbe_refines hg₄
    · cases hok; exact refl hg₄

/-- Entering the next term and voting for oneself: `bump`, `stand` and `vote`. -/
theorem standFor_refines (hterm : term = r.state.term + 1) :
    Frame r (r.standFor term) ∧ ∃ g', Evolves cfg r.id g g' ∧
      Good cfg g' (r.standFor term, output) ∧ CandidateInv g' (r.standFor term) := by
  have hd := h.durable
  have hlt : r.state.term < term := by omega
  have hst := follow_state_lt hlt
  have hid : (r.follow term).id = r.id := follow_id r term
  -- nothing of the new term is recorded about this member
  have hfresh : g.view.stood r.id term = none := by
    cases hs : g.view.stood r.id term with
    | none => rfl
    | some L =>
      have := h.inv.stood_le hs
      rw [hd.term] at this; omega
  have hunled : g.view.leader term ≠ some r.id := by
    intro hl
    obtain ⟨L, _, hs, _⟩ := h.inv.leader_stood hl
    rw [hfresh] at hs; cases hs
  have hlog : ∀ e ∈ g.view.log r.id, e.term < term := by
    intro e he
    have : e.term ≤ g.view.cur r.id := h.inv.log_le r.id e he
    rw [hd.term] at this; omega
  obtain ⟨hev₁, hg₁⟩ := follow_good h hlt
  have hcur : (g.view.bump r.id term).cur r.id = term := by simp [bump]
  have hd₁ : Durable cfg _ (r.follow term).id (r.follow term).state := hg₁.durable
  rw [hid, hst] at hd₁
  have hact₂ : Act (rules C cfg) r.id (g.view.bump r.id term)
      ((g.view.bump r.id term).stand r.id) :=
    .stand (by rw [hcur]; exact hfresh) (by rw [hcur]; exact hlog)
  have hev₂ := act (g := { g with view := g.view.bump r.id term }) hg₁.inv hact₂
  have hstood : ((g.view.bump r.id term).stand r.id).stood r.id term = some (g.view.log r.id) := by
    simp [stand, hcur]; rfl
  have hact₃ : Act (rules C cfg) r.id ((g.view.bump r.id term).stand r.id)
      (((g.view.bump r.id term).stand r.id).vote r.id r.id) := by
    refine .vote (L := g.view.log r.id) ?_ ?_ (Or.inr ⟨rfl, le_rfl⟩)
    · change (g.view.bump r.id term).voted r.id ((g.view.bump r.id term).cur r.id) = none
      rw [hcur]; exact hd₁.vote
    · change ((g.view.bump r.id term).stand r.id).stood r.id
        ((g.view.bump r.id term).cur r.id) = _
      rw [hcur, hstood]
  have hev₃ := act (g := { g with view := (g.view.bump r.id term).stand r.id })
    (hev₂.inv hg₁.inv) hact₃
  have hev := (hev₁.trans hev₂).trans hev₃
  have hvoted : (((g.view.bump r.id term).stand r.id).vote r.id r.id).voted r.id term =
      some r.id := by
    have hcur' : ((g.view.bump r.id term).stand r.id).cur r.id = term := hcur
    simp [vote, hcur']
  have hstate : (r.standFor term).state = { r.state with term, votedFor := some r.id } := by
    unfold standFor
    simp only [hst, hid]
  have hid' : (r.standFor term).id = r.id := hid
  have hcand : CandidateInv { g with view := ((g.view.bump r.id term).stand r.id).vote r.id r.id }
      (r.standFor term) := by
    refine ⟨?_, ?_, ?_, follow_progress r term⟩
    · rw [hid', hstate]; exact hstood
    · rw [hid', hstate]; exact hunled
    · intro x hx
      change x ∈ (r.follow term).votes.insert (r.follow term).id at hx
      rw [follow_votes, hid, Std.ExtTreeSet.mem_insert] at hx
      rcases hx with hx | hx
      · obtain rfl : r.id = x := Std.LawfulEqCmp.eq_of_compare hx
        rw [hid', hstate]; exact hvoted
      · simp at hx
  refine ⟨?_, _, hev, ⟨hev.inv h.inv, ?_, fun env henv => (h.sent env henv).mono hev.le⟩, hcand⟩
  · have hf := follow_frame r term
    refine ⟨hf.id, ?_, hf.initialized, hf.incarnation, ?_, fun hk => ?_⟩
    · rw [hstate]
    · rw [hstate]
    · rw [hstate]; exact ⟨(hf.kept hk).1, rfl, rfl⟩
  · exact
      { durable := by
          change Durable cfg _ (r.standFor term).id (r.standFor term).state
          rw [hid', hstate]
          exact
            { hd with
              term := hcur
              vote := hvoted
              log := ⟨hd.log.base, hd.log.entries⟩
              commit := hd.commit.mono hev.le.view hlt.le }
        candidate := fun _ => hcand
        leading := fun hr => by cases hr
        incoming := fun pending hp => by
          change (r.follow term).incomingSnapshot = some pending at hp
          rw [follow_incoming_lt hlt] at hp; cases hp }

theorem campaign_refines (hok : r.campaign output = .ok s) : Refines cfg g r s := by
  unfold campaign at hok
  split_ifs at hok with hr
  · cases hok; exact refl h
  cases hterm : checkedAdd r.state.term 1 with
  | none => rw [hterm] at hok; cases hok
  | some term =>
    simp only [hterm] at hok
    obtain ⟨hframe, g₁, hev, hg, hcand⟩ := standFor_refines h (checkedAdd_eq_some hterm)
    have hg' := hg.output { output with resetElectionTimer := true } rfl
    have hd : Durable cfg g₁ (r.standFor term).id (r.standFor term).state := hg.durable
    -- the rest starts from the candidate
    have hrest : Refines cfg g₁ (r.standFor term) s := by
      split_ifs at hok with hq
      · rw [hd.configuration] at hq
        exact becomeLeader_refines hg' rfl hcand hq hok
      · cases hok
        refine refl (s := (r.standFor term, _)) (hg'.emitAll fun recipient => ?_)
        have hst : (r.standFor term).state.term = term := by
          have := hcand.stood
          unfold standFor
          exact follow_term (by rw [checkedAdd_eq_some hterm]; omega)
        refine ⟨g₁.view.log (r.standFor term).id, ?_, hd.log.lastIndex, hd.log.lastTerm⟩
        have := hcand.stood
        rwa [hst] at this
    obtain ⟨hframe', g₂, hev', hg₂⟩ := hrest
    rw [hframe.id] at hev'
    exact ⟨hframe.trans hframe', g₂, hev.trans hev', hg₂⟩

theorem preCampaign_refines (hok : r.preCampaign output = .ok s) : Refines cfg g r s := by
  unfold preCampaign at hok
  split_ifs at hok with hr
  · cases hok; exact refl h
  cases hterm : checkedAdd r.state.term 1 with
  | none => rw [hterm] at hok; cases hok
  | some term =>
    simp only [hterm] at hok
    refine (follow_refines h r.state.term).bind fun g₁ hg₁ => ?_
    generalize hf : r.follow r.state.term = f at hg₁ hok
    have hpre : Refines cfg g₁ f ({ f with incomingSnapshot := none, role := .preCandidate },
        { output with resetElectionTimer := true }) :=
      ⟨.same rfl, g₁, refl _ _, hg₁.inv,
        hg₁.node.passive rfl rfl (by simp) (by simp) (fun _ hp => by cases hp), hg₁.sent⟩
    refine hpre.bind fun g₂ hg₂ => ?_
    split_ifs at hok with hq
    · exact campaign_refines hg₂ hok
    · cases hok
      have hround : Refines cfg g₂ _ ({ f with
          incomingSnapshot := none, role := .preCandidate
          liveness := { f.liveness with preVote := some {
            term, round := f.generation, voters := .ofList [f.id] } } }, _) := same
        hg₂ rfl rfl le_rfl (fun _ hp => hp) rfl
      refine hround.bind fun g₃ hg₃ => refl (hg₃.emitAll ?_)
      intro _
      trivial

theorem livenessTimeout_refines (hok : r.livenessTimeout output = .ok s) : Refines cfg g r s := by
  unfold livenessTimeout at hok
  have henable : Refines cfg g r
      ({ r with liveness := { r.liveness with enabled := true } }, output) := same
    h rfl rfl le_rfl (fun _ hp => hp) rfl
  refine henable.bind fun g₁ hg₁ => ?_
  dsimp only at hok
  split_ifs at hok with hrole hlost
  · exact preCampaign_refines hg₁ hok
  · cases hok
    exact (follow_refines hg₁ r.state.term).bind fun g₂ hg₂ =>
      refl (hg₂.output { output with resetElectionTimer := true } rfl)
  · cases hok; exact startQuorumProbe_refines hg₁

/-! ## Hand-off -/

theorem startHandoff_refines (hr : r.role = .leader)
    {target : MemberId} (hok : r.startHandoff target output = .ok s) :
    Refines cfg g r s := by
  unfold startHandoff at hok
  have hopen : Refines cfg g r
      ({ r with handoff := some (r.handoff.getD (r.newHandoff target)) }, output) := same
    h rfl rfl le_rfl (fun _ hp => hp) rfl
  refine hopen.bind fun g₁ hg₁ => ?_
  dsimp only at hok
  split_ifs at hok with hlag
  · exact (sendAppend_leads hg₁ hr hok).refines
  · cases hok; exact refl hg₁

theorem driveHandoff_refines (retry : Bool) : Refines cfg g r (r.driveHandoff output retry) := by
  unfold driveHandoff
  split
  · exact refl h
  · dsimp only
    split_ifs
    · exact refl h
    · exact refl h
    · exact same (h.emit (by trivial)) rfl rfl le_rfl (fun _ hp => hp) rfl

variable {sender : MemberId}

theorem timeoutNow_refines {lastIndex lastTerm : ℕ}
    (hok : r.timeoutNow sender term lastIndex lastTerm output = .ok s) : Refines cfg g r s := by
  unfold timeoutNow at hok
  split_ifs at hok
  · cases hok; exact refl h
  · exact campaign_refines h hok

/-! ## Liveness messages -/

theorem quorumProbe_refines (sender : MemberId) (term round : ℕ) :
    Refines cfg g r (r.quorumProbe sender term round output) := by
  have hreply : ∀ {g' : Ghost C} {s : Stepped C}, Good cfg g' s → Refines cfg g' s.1 (s.1,
      if s.1.isVoter s.1.id then s.1.emit sender (.quorumReply s.1.state.term round) s.2
      else s.2) := by
    intro g' s hg
    split_ifs
    · exact refl (hg.emit (by trivial))
    · exact refl hg
  unfold quorumProbe
  dsimp only
  by_cases hterm : term = r.state.term
  · rw [if_pos hterm]
    exact (acceptLeader_refines h sender term).1.bind fun g₁ hg₁ => hreply hg₁
  · rw [if_neg hterm]
    exact hreply h

theorem quorumReply_refines (sender : MemberId) (term round : ℕ) :
    Refines cfg g r (r.quorumReply sender term round, output) := by
  unfold quorumReply
  split_ifs
  · exact refl h
  · exact same h rfl rfl le_rfl (fun _ hp => hp) rfl

theorem preVoteReply_refines {prospectiveTerm round : ℕ}
    {granted : Bool} (hok : r.preVoteReply sender prospectiveTerm round granted output = .ok s) :
    Refines cfg g r s := by
  unfold preVoteReply at hok
  split_ifs at hok
  · cases hok; exact refl h
  cases hp : r.liveness.preVote with
  | none =>
    rw [hp] at hok
    cases hok; exact refl h
  | some pending =>
    simp only [hp] at hok
    split_ifs at hok
    · cases hok; exact refl h
    · have htally : Refines cfg g r ({ r with liveness := { r.liveness with
          preVote := some { pending with voters := pending.voters.insert sender } } }, output) :=
        same h rfl rfl le_rfl (fun _ hp => hp) rfl
      exact htally.bind fun g₁ hg₁ => campaign_refines hg₁ hok
    · cases hok
      exact same h rfl rfl le_rfl (fun _ hp => hp) rfl

/-! ## Votes -/

variable {L : List (Entry C)}

theorem freshEnough_upToDate
    (hfresh : r.freshEnough ((L.getLast?.map Entry.term).getD 0) L.length = true) :
    (rules C cfg).UpToDate L (g.view.log r.id) := by
  unfold freshEnough at hfresh
  rw [decide_eq_true_eq, h.durable.log.lastTerm, h.durable.log.lastIndex] at hfresh
  exact hfresh

/-- A granted vote is the protocol's `vote`, unless it was cast before. -/
theorem grant_refines (hvote : r.state.votedFor = none ∨ r.state.votedFor = some sender)
    (hstood : g.view.stood sender r.state.term = some L)
    (hup : (rules C cfg).UpToDate L (g.view.log r.id)) :
    ∃ g', Evolves cfg r.id g g' ∧ g'.view.voted r.id r.state.term = some sender ∧
      Good cfg g' ({ r with state := { r.state with votedFor := some sender } }, output) := by
  have hd := h.durable
  rcases hvote with hnone | hsome
  swap
  · refine ⟨g, refl _ _, by rw [hd.vote, hsome], ?_⟩
    have heq : ({ r with state := { r.state with votedFor := some sender } } : Raft C) = r := by
      rw [← hsome]
    rw [heq]
    exact h
  have hact : Act (rules C cfg) r.id g.view (g.view.vote r.id sender) := by
    refine .vote (L := L) ?_ ?_ hup
    · rw [hd.term, hd.vote, hnone]
    · rw [hd.term, hstood]
  have hev := act h.inv hact
  have hvoted : (g.view.vote r.id sender).voted r.id r.state.term = some sender := by
    simp [vote, hd.term]
  refine ⟨_, hev, hvoted, hev.inv h.inv, ?_, fun env henv => (h.sent env henv).mono hev.le⟩
  exact
    { durable :=
        { hd with
          vote := hvoted
          log := ⟨hd.log.base, hd.log.entries⟩ }
      candidate := fun hr => by
        obtain ⟨hst, hun, hv, hp⟩ := h.node.candidate hr
        exact ⟨hst, hun, fun x hx => hev.ext.voted (hv x hx), hp⟩
      leading := fun hr => by
        obtain ⟨hl, ha, hc, hp, hq, ho⟩ := h.leading hr
        exact ⟨hl, ha, hc, fun peer progress hpr => (hp peer progress hpr).mono hev.le, hq, ho⟩
      incoming := fun pending hp => (h.node.incoming pending hp).imp id (OfferInv.mono hev.le) }

theorem grantVote_refines (hvote : r.state.votedFor = none ∨ r.state.votedFor = some sender)
    (hstood : g.view.stood sender r.state.term = some L)
    (hfresh : r.freshEnough ((L.getLast?.map Entry.term).getD 0) L.length = true) :
    Refines cfg g r ({ r with state := { r.state with votedFor := some sender } },
      emit { r with state := { r.state with votedFor := some sender } } sender
        (.vote r.state.term true) { output with resetElectionTimer := true }) := by
  obtain ⟨g', hev, hvoted, hg⟩ := grant_refines h hvote hstood (freshEnough_upToDate h hfresh)
  refine ⟨⟨rfl, rfl, rfl, rfl, le_rfl, fun hk => ⟨hk, rfl, rfl⟩⟩, g', hev, ?_⟩
  exact (hg.output { output with resetElectionTimer := true } rfl).emit fun _ => hvoted

theorem receiveRequestVote_refines {lastIndex lastTerm : ℕ}
    (hstood : g.view.stood sender term = some L) (hindex : lastIndex = L.length)
    (hlast : lastTerm = (L.getLast?.map Entry.term).getD 0) :
    Refines cfg g r (r.receiveRequestVote sender term lastIndex lastTerm output) := by
  unfold receiveRequestVote
  dsimp only
  by_cases hgrant : term = r.state.term ∧ r.isVoter r.id = true ∧
      (r.state.votedFor = none ∨ r.state.votedFor = some sender) ∧
      r.freshEnough lastTerm lastIndex = true
  swap
  · rw [if_neg hgrant]
    exact refl (h.emit (by intro hf; cases hf))
  rw [if_pos hgrant]
  obtain ⟨rfl, _, hvote, hfresh⟩ := hgrant
  subst hindex; subst hlast
  by_cases hpre : r.role = .preCandidate
  · -- a pre-candidate gives up its round first
    rw [if_pos hpre]
    have hst := follow_state_ge (r := r) le_rfl
    obtain ⟨hframe, g₁, hev, hg₁⟩ := follow_refines h r.state.term
    have hvote' := grantVote_refines (r := r.follow r.state.term) (L := L) hg₁
      (by rw [hst]; exact hvote) (by rw [hst]; exact hev.le.view.stood hstood)
      (by unfold freshEnough at hfresh ⊢; rw [hst]; exact hfresh)
    obtain ⟨hframe', g₂, hev', hg₂⟩ := hvote'
    rw [follow_id] at hev'
    exact ⟨hframe.trans hframe', g₂, hev.trans hev', hg₂⟩
  · rw [if_neg hpre]
    exact grantVote_refines h hvote hstood hfresh

theorem receiveVote_refines {granted : Bool}
    (hvote : granted = true → g.view.voted sender term = some r.id)
    (hok : r.receiveVote sender term granted output = .ok s) :
    Refines cfg g r s := by
  unfold receiveVote at hok
  by_cases hcount : term = r.state.term ∧ r.role = .candidate ∧ granted = true
  swap
  · rw [if_neg hcount] at hok
    cases hok; exact refl h
  rw [if_pos hcount] at hok
  obtain ⟨rfl, hrole, hgranted⟩ := hcount
  obtain ⟨hst, hun, hv, hp⟩ := h.node.candidate hrole
  have hcand : CandidateInv g { r with votes := r.votes.insert sender } := by
    refine ⟨hst, hun, ?_, hp⟩
    intro x hx
    rcases Std.ExtTreeSet.mem_insert.mp hx with hx | hx
    · obtain rfl : sender = x := Std.LawfulEqCmp.eq_of_compare hx
      exact hvote hgranted
    · exact hv x hx
  have hframe : Frame r { r with votes := r.votes.insert sender } := .same rfl
  have hgood : Good cfg g ({ r with votes := r.votes.insert sender }, output) := by
    refine ⟨h.inv, ?_, h.sent⟩
    exact
      { durable := h.durable
        candidate := fun _ => hcand
        leading := fun hr => by rw [show r.role = .leader from hr] at hrole; cases hrole
        incoming := h.node.incoming }
  dsimp only at hok
  split_ifs at hok with hq
  · rw [h.durable.configuration] at hq
    obtain ⟨hframe', g', hev, hg⟩ := becomeLeader_refines hgood hrole hcand hq hok
    exact ⟨hframe.trans hframe', g', hev, hg⟩
  · cases hok
    exact ⟨hframe, g, refl _ _, hgood⟩

end FrankenGraph.Order

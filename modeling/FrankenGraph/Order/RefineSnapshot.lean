import FrankenGraph.Order.RefineReplication

/-!
# Snapshots refine the protocol

Compaction moves the cut and changes no uncompacted log. A follower that installs
a snapshot performs the protocol's `accept` up to the cut; one that already
committed the cut performs it without changing its log.

Results:
* `compact_refines`, `installSnapshot_refines`, `offerSnapshot_refines`.
-/

namespace FrankenGraph.Order

open Protocol

variable {C : Type} {cfg : Configuration} {g : Ghost C} {r : Raft C} {output : Output C}

/-! ## Compaction -/

variable {cut : SnapshotCut}

/-- The state after a compaction represents the same log. -/
theorem LogRep.compact {L : List (Entry C)} {st : PersistentState C} (h : LogRep L st)
    (hterm : st.termAt cut.index = some cut.term) :
    LogRep L { st with
      entries := st.entries.drop (cut.index - st.baseIndex), snapshot := some cut } := by
  obtain ⟨hbase, hlog⟩ := h.termAt_some hterm
  refine ⟨hlog, ?_⟩
  change st.entries.drop (cut.index - st.baseIndex) = L.drop cut.index
  rw [h.entries, List.drop_drop, Nat.add_sub_cancel' hbase]

variable (h : Good cfg g (r, output))
include h

theorem compact_refines (hvalid : r.state.snapshot = some cut ∨
      cut.index ≤ r.state.commitIndex ∧ r.state.termAt cut.index = some cut.term) :
    Refines cfg g r (r.compact cut, output) := by
  unfold Raft.compact
  by_cases hsame : r.state.snapshot = some cut
  · rw [if_pos hsame]; exact Refines.refl h
  rw [if_neg hsame]
  obtain ⟨hcommit, hterm⟩ := hvalid.resolve_left hsame
  have hd := h.durable
  refine ⟨⟨rfl, rfl, rfl, rfl, le_rfl, fun hk => by cases hk⟩, g, Evolves.refl _ _, h.inv, ?_,
    h.sent⟩
  exact
    { durable :=
        { hd with
          log := hd.log.compact hterm
          base_commit := hcommit }
      candidate := fun hc => by
        obtain ⟨hst, hun, hv, hp⟩ := h.node.candidate hc
        refine ⟨hst, hun, hv, ?_⟩
        change r.progress.map _ = ∅
        rw [show r.progress = ∅ from hp]
        exact Std.ExtTreeMap.map_eq_empty_iff.mpr rfl
      leading := fun hl => by
        obtain ⟨hlead, hack, hcom, hp, hreq, hothers⟩ := h.node.leading hl
        refine ⟨hlead, hack, hcom, fun peer progress hget => ?_, hreq, ?_⟩
        swap
        · change (r.progress.map _)[r.id]? = none
          rw [Std.ExtTreeMap.getElem?_map, hothers, Option.map_none]
        change (r.progress.map _)[peer]? = some progress at hget
        rw [Std.ExtTreeMap.getElem?_map] at hget
        obtain ⟨old, hold, rfl⟩ := Option.map_eq_some_iff.mp hget
        exact ⟨(hp peer old hold).matched, fun flight hflight => by cases hflight⟩
      incoming := h.node.incoming }

/-! ## Installation -/

/-- The state after an installation represents the overlay of the leader's prefix. -/
theorem adoptSnapshot_logRep (hcut : CutInv g r.state.term cut)
    (hnew : r.state.commitIndex < cut.index) :
    LogRep ((g.view.accept r.id cut.index).log r.id) (r.adoptSnapshot cut).state := by
  have hd := h.durable
  have hbc := hd.base_commit
  rw [accept_log, hd.term]
  constructor
  · change logTerm _ cut.index = some cut.term
    rw [logTerm_take_eq (overlay_take _ _ _) le_rfl, hcut.term]
  · change (if r.state.termAt cut.index = some cut.term then
      r.state.entries.drop (cut.index - r.state.baseIndex) else []) = List.drop cut.index _
    have hterm := hd.log.termAt (i := cut.index) (by omega)
    unfold overlay
    split_ifs with hmatch htake htake
    · rw [hd.log.entries, List.drop_drop, Nat.add_sub_cancel' (by omega)]
    · -- equal terms at the cut, so the logs agree up to it
      exact absurd (h.take_eq_leaderLog (hterm ▸ hmatch) hcut.term) htake
    · rw [hterm, logTerm_take_eq htake le_rfl] at hmatch
      exact absurd hcut.term hmatch
    · rw [List.drop_take, Nat.sub_self, List.take_zero]

theorem installSnapshot_refines
    (hterm : ∀ pending, r.incomingSnapshot = some pending → pending.term = r.state.term)
    {s : Stepped C} (hok : r.installSnapshot output = .ok s) : Refines cfg g r s := by
  unfold Raft.installSnapshot at hok
  split at hok
  · cases hok
  rename_i pending hpending
  dsimp only at hok
  split_ifs at hok with hold
  cases hok
  obtain ⟨hrole, hoffer⟩ := h.node.incoming pending hpending
  rw [hterm pending hpending] at hoffer
  have hd := h.durable
  obtain ⟨hev, hgood, hack⟩ := accept_good
    (h.output { output with installedSnapshot := some pending.transfer.snapshot } rfl)
    (r.adoptSnapshot pending.transfer.snapshot) hoffer.leader (logTerm_le hoffer.cut.term) rfl rfl rfl rfl hrole
    (adoptSnapshot_logRep h hoffer.cut (by omega)) le_rfl
    (by
      rw [accept_log, hd.term]
      exact hoffer.cut.committed.take_eq le_rfl (overlay_take _ _ _))
    (fun _ hp => by cases hp)
  refine ⟨⟨rfl, rfl, rfl, rfl, ?_, fun hk => by cases hk⟩, _, hev, hgood.emit ?_⟩
  · change r.state.commitIndex ≤ pending.transfer.snapshot.index
    omega
  · exact ⟨pending.transfer.snapshot.index, hoffer.issued, hack⟩

/-! ## Offers -/

/-- A follower that has committed the offered cut acknowledges it. -/
theorem acknowledgeCut_refines (hrole : r.role = .follower)
    {sender : MemberId} {request : ℕ} (hoffer : OfferInv g sender r.id r.state.term request cut)
    (hold : cut.index ≤ r.state.commitIndex) :
    Refines cfg g r
      (r, r.emit sender (.snapshotInstalled r.state.term request) output) := by
  have hd := h.durable
  have hL : (g.view.accept r.id cut.index).log r.id = g.view.log r.id := by
    have hcommitted := h.inv.committed_leader hd.commit le_rfl hoffer.leader
    rw [accept_log, hd.term]
    unfold overlay
    rw [if_pos (take_eq_of_le hcommitted hold).symm]
  obtain ⟨hev, hgood, hack⟩ := accept_good h r hoffer.leader (logTerm_le hoffer.cut.term) rfl rfl rfl
    rfl hrole (hL ▸ hd.log) hd.base_commit (hL ▸ hd.commit) (fun _ hp => hp)
  exact ⟨Frame.refl _, _, hev, hgood.emit ⟨cut.index, hoffer.issued, hack⟩⟩

/-- A follower remembers an offer. -/
theorem remember_refines (hrole : r.role = .follower)
    {pending : IncomingSnapshot} {output' : Output C}
    (hoffer : OfferInv g pending.transfer.source r.id pending.term pending.request
      pending.transfer.snapshot) (hmessages : output'.messages = output.messages) :
    Refines cfg g r ({ r with incomingSnapshot := some pending }, output') := by
  refine ⟨.same rfl, g, Evolves.refl _ _, h.inv, ?_, ?_⟩
  · exact
      { durable := h.node.durable
        candidate := fun hr => absurd (hrole.symm.trans hr) (by decide)
        leading := fun hr => absurd (hrole.symm.trans hr) (by decide)
        incoming := fun p hp => by cases hp; exact ⟨hrole, hoffer⟩ }
  · change ∀ env ∈ output'.messages, MsgInv g env
    rw [hmessages]; exact h.sent

theorem offerSnapshot_refines {sender : MemberId} {term request : ℕ}
    (hmsg : OfferInv g sender r.id term request cut) :
    Refines cfg g r (r.offerSnapshot sender term request cut output) := by
  unfold Raft.offerSnapshot
  by_cases hstale : term < r.state.term
  · rw [if_pos hstale]
    exact Refines.refl (h.emit (by intro hf; cases hf))
  rw [if_neg hstale]
  obtain ⟨⟨hframe, g₁, hev, hg₁⟩, hst, hrole⟩ := acceptLeader_refines h sender term
  generalize r.acceptLeader sender term output = s₁ at *
  obtain ⟨r₁, output₁⟩ := s₁
  have hterm : r₁.state.term = term := by
    rw [show r₁.state = _ from hst, Raft.follow_term (by omega)]
  have hid : r₁.id = r.id := hframe.id
  have hoffer := hmsg.mono hev.le
  rw [← hterm, ← hid] at hoffer
  refine Refines.after hframe hev ?_
  rw [← hterm]
  dsimp only
  by_cases hold : cut.index ≤ r₁.state.commitIndex
  · rw [if_pos hold]
    exact acknowledgeCut_refines hg₁ hrole hoffer hold
  rw [if_neg hold]
  split
  · exact remember_refines hg₁ hrole hoffer rfl
  · split_ifs
    · exact Refines.same hg₁ rfl rfl le_rfl (fun _ hp => hp) rfl
    · exact Refines.refl hg₁
    · exact remember_refines hg₁ hrole hoffer rfl

end FrankenGraph.Order

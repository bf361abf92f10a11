import FrankenGraph.Order.RefineElection

/-!
# Replication refines the protocol

A follower that takes over an append performs the protocol's `accept`: its
uncompacted log becomes the `overlay` of the leader's prefix. A leader's
acknowledgement bookkeeping only repeats what followers have acknowledged.

Results:
* `appendEntries_spec`: the loop over an append's entries computes an overlay.
* `receiveAppend_refines`, `receiveAppended_refines`,
  `receiveSnapshotInstalled_refines`: the arms of `receive`.
-/

namespace FrankenGraph.Order

open Protocol List Raft Refines

variable {C : Type} {cfg : Configuration} {g : Ghost C} {r : Raft C} {output : Output C}

/-! ## The loop over an append -/

theorem not_cons_isPrefix_drop {l : List (Entry C)} {p : ℕ} (hp : l.length ≤ p) (e : Entry C)
    (rest : List (Entry C)) : ¬ (e :: rest) <+: l.drop p := by
  rw [drop_of_length_le hp]
  simp

/-- Appending at the end of the log. -/
theorem appendEntries_end (es : List (Entry C)) : ∀ (l : List (Entry C)) (changed : Bool),
      (appendEntries l.length es (l, changed)).1 = l ++ es ∧
        ((appendEntries l.length es (l, changed)).2 = false → changed = false ∧ es = []) := by
  induction es with
  | nil => intro l changed; simp [appendEntries]
  | cons e rest ih =>
    intro l changed
    have hstep : appendEntries l.length (e :: rest) (l, changed) =
        appendEntries (l ++ [e]).length rest (l ++ [e], true) := by
      rw [appendEntries]
      simp
    rw [hstep]
    obtain ⟨h1, h2⟩ := ih (l ++ [e]) true
    refine ⟨by rw [h1]; simp, fun hf => ?_⟩
    cases (h2 hf).1

/-- The loop leaves a log that holds the entries alone, and else cuts it down to
the part before them and appends them. Entries of one term at one index must
be equal. -/
theorem appendEntries_spec (es : List (Entry C)) :
    ∀ (l : List (Entry C)) (p : ℕ) (changed : Bool), p ≤ l.length →
      (∀ j e e', l[p + j]? = some e → es[j]? = some e' → e.term = e'.term → e = e') →
      (es <+: l.drop p → appendEntries p es (l, changed) = (l, changed)) ∧
      (¬ es <+: l.drop p → appendEntries p es (l, changed) = (l.take p ++ es, true)) := by
  induction es with
  | nil =>
    intro l p changed _ _
    exact ⟨fun _ => rfl, fun h => absurd nil_prefix h⟩
  | cons e rest ih =>
    intro l p changed hp hid
    rcases Nat.eq_or_lt_of_le hp with heq | hlt
    · -- the log ends here
      subst heq
      refine ⟨fun h => absurd h (not_cons_isPrefix_drop le_rfl e rest), fun _ => ?_⟩
      obtain ⟨h1, h2⟩ := appendEntries_end (e :: rest) l changed
      rw [take_length]
      refine Prod.ext h1 ?_
      cases hc : (appendEntries l.length (e :: rest) (l, changed)).2 with
      | true => rfl
      | false => exact absurd (h2 hc).2 (by simp)
    have hget : l[p]? = some l[p] := getElem?_eq_getElem hlt
    have hdrop : l.drop p = l[p] :: l.drop (p + 1) := drop_eq_getElem_cons hlt
    by_cases hterm : l[p].term = e.term
    · -- equal terms: the same entry, nothing changes at this position
      have hsame : l[p] = e := hid 0 l[p] e hget (by simp) hterm
      have hstep : appendEntries p (e :: rest) (l, changed) =
          appendEntries (p + 1) rest (l, changed) := by
        rw [appendEntries]
        simp [hget, hterm, show p ≠ l.length by omega]
      obtain ⟨h1, h2⟩ := ih l (p + 1) changed hlt fun j a b ha hb =>
        hid (j + 1) a b (by rw [← ha]; congr 1; omega) (by simpa using hb)
      rw [hstep, hdrop, hsame]
      constructor
      · intro hpre
        exact h1 ((cons_prefix_cons.mp hpre).2)
      · intro hpre
        rw [h2 fun hr => hpre (cons_prefix_cons.mpr ⟨rfl, hr⟩), take_add_one, hget, hsame]
        simp
    · -- a conflict: cut here, then append
      have hstep : appendEntries p (e :: rest) (l, changed) =
          appendEntries (l.take p ++ [e]).length rest (l.take p ++ [e], true) := by
        rw [appendEntries]
        simp [hget, hterm, Nat.min_eq_left hlt.le]
      have hend := appendEntries_end rest (l.take p ++ [e]) true
      constructor
      · intro hpre
        rw [hdrop] at hpre
        exact absurd (congrArg Entry.term (cons_prefix_cons.mp hpre).1.symm) hterm
      · intro _
        rw [hstep]
        refine Prod.ext (by rw [hend.1]; simp) ?_
        cases hc : (appendEntries (l.take p ++ [e]).length rest (l.take p ++ [e], true)).2 with
        | true => rfl
        | false => cases (hend.2 hc).1

/-! ## Taking over a prefix of the leader's log -/

variable (h : Good cfg g (r, output))
include h

/-- Equal terms at an index of a member's log and of a leader's log: the logs agree
up to it. -/
theorem Good.take_eq_leaderLog {t n u : ℕ} (hmine : logTerm (g.view.log r.id) n = some u)
    (htheirs : logTerm (g.view.leaderLog t) n = some u) :
    (g.view.log r.id).take n = (g.view.leaderLog t).take n :=
  logTerm_agree (h.inv.log_rooted r.id) (h.inv.leaderLog_rooted t) hmine htheirs

omit h in
theorem accept_log (v : View MemberId (Entry C)) (m : MemberId) (n : ℕ) :
    (v.accept m n).log m = overlay (v.log m) (v.leaderLog (v.cur m)) n := by
  simp [View.accept]

omit h in
theorem accept_acked (v : View MemberId (Entry C)) (m : MemberId) (n : ℕ) :
    n ≤ (v.accept m n).acked m (v.cur m) := by
  simp [View.accept]

/-- Taking over a leader's prefix keeps what is committed. -/
theorem overlay_commit {c : MemberId} (hl : g.view.leader r.state.term = some c) (n : ℕ) :
    (overlay (g.view.log r.id) (g.view.leaderLog r.state.term) n).take r.state.commitIndex =
      (g.view.log r.id).take r.state.commitIndex := by
  have hK := h.inv.committed_leader h.durable.commit le_rfl hl
  unfold overlay
  split_ifs with heq
  · rfl
  · have hlt : r.state.commitIndex < n := by
      by_contra hnot
      exact heq (take_eq_of_le hK (not_lt.mp hnot)).symm
    rw [take_take, Nat.min_eq_left hlt.le, hK]

/-- A follower whose new state represents the overlay of its leader's prefix. -/
theorem accept_good {c : MemberId} {n : ℕ} (r' : Raft C) (hl : g.view.leader r.state.term = some c)
    (hn : n ≤ (g.view.leaderLog r.state.term).length) (hid : r'.id = r.id)
    (hcfg : r'.state.configuration = r.state.configuration)
    (hterm : r'.state.term = r.state.term) (hvote : r'.state.votedFor = r.state.votedFor)
    (hrole : r'.role = .follower)
    (hlog : LogRep ((g.view.accept r.id n).log r.id) r'.state)
    (hbase : r'.state.baseIndex ≤ r'.state.commitIndex)
    (hcommit : Protocol.Committed g.view r.state.term ((g.view.accept r.id n).log r.id)
      r'.state.commitIndex)
    (hincoming : ∀ pending, r'.incomingSnapshot = some pending →
      r.incomingSnapshot = some pending) :
    Evolves cfg r.id g { g with view := g.view.accept r.id n } ∧
      Good cfg { g with view := g.view.accept r.id n } (r', output) ∧
      n ≤ (g.view.accept r.id n).acked r.id r.state.term := by
  have hd := h.durable
  have hact : Act (rules C cfg) r.id g.view (g.view.accept r.id n) :=
    .accept (by rw [hd.term]; exact hl) (by rw [hd.term]; exact hn)
  have hev := Evolves.act h.inv hact
  refine ⟨hev, ⟨hev.inv h.inv, ?_, fun env henv => (h.sent env henv).mono hev.le⟩, ?_⟩
  · exact
      { durable := by
          change Durable cfg _ r'.id r'.state
          rw [hid]
          exact
            { configuration := hcfg.trans hd.configuration
              term := by rw [hterm]; exact hd.term
              vote := by rw [hterm, hvote]; exact hd.vote
              log := hlog
              base_commit := hbase
              commit := by rw [hterm]; exact hcommit.mono hev.le.view le_rfl }
        candidate := fun hr => by rw [show _ = Role.follower from hrole] at hr; cases hr
        leading := fun hr => by rw [show _ = Role.follower from hrole] at hr; cases hr
        incoming := fun pending hp => by
          refine ⟨hrole, ?_⟩
          change OfferInv _ _ r'.id _ _ _
          rw [hid]
          exact (h.node.incoming pending (hincoming pending hp)).2.mono hev.le }
  · rw [← hd.term]; exact accept_acked _ _ _

/-! ## Appends -/

variable {sender recipient : MemberId} {request prev prevTerm commit : ℕ} {es : List (Entry C)}

/-- The retained log after a matching append is the retained part of the overlay. -/
theorem appendEntries_overlay
    (hmsg : AppendInv g sender recipient r.state.term request prev prevTerm es commit)
    (hmatch : r.state.termAt prev = some prevTerm) (changed : Bool) :
    (appendEntries (prev - r.state.baseIndex) es (r.state.entries, changed)).1 =
        ((g.view.accept r.id (prev + es.length)).log r.id).drop r.state.baseIndex ∧
      ((appendEntries (prev - r.state.baseIndex) es (r.state.entries, changed)).2 = false →
        changed = false ∧
        (appendEntries (prev - r.state.baseIndex) es (r.state.entries, changed)).1 =
          r.state.entries) := by
  have hd := h.durable
  obtain ⟨hbase, hterm⟩ := hd.log.termAt_some hmatch
  have hsame := h.take_eq_leaderLog hterm hmsg.prevTerm
  have hprev := logTerm_le hterm
  have hrange := hmsg.range
  have hreach := hmsg.reach
  rw [accept_log, hd.term, hd.log.entries]
  generalize hL : g.view.log r.id = L at *
  generalize hK : g.view.leaderLog r.state.term = K at *
  generalize r.state.baseIndex = base at *
  -- entries of one term at one index are equal
  have hident : ∀ j e e', (L.drop base)[prev - base + j]? = some e → es[j]? = some e' →
      e.term = e'.term → e = e' := by
    intro j e e' he he' ht
    rw [getElem?_drop, show base + (prev - base + j) = prev + j by omega] at he
    rw [hrange, getElem?_drop, getElem?_take] at he'
    split_ifs at he' with hj
    have hag : Agree L K (prev + j) := Rules.Rooted.agree (P := rules C cfg)
      (hL ▸ h.inv.log_rooted r.id) (hK ▸ h.inv.leaderLog_rooted r.state.term) he he' ht
    have := hag.getElem? le_rfl
    rw [he, he'] at this
    exact Option.some.inj this
  obtain ⟨hkeep, hcut⟩ := appendEntries_spec es (L.drop base) (prev - base) changed
    (by rw [length_drop]; omega) hident
  have hdrop : (L.drop base).drop (prev - base) = L.drop prev := by
    rw [drop_drop, Nat.add_sub_cancel' hbase]
  rw [hdrop] at hkeep hcut
  have hsplit : K.take (prev + es.length) = L.take prev ++ es := by
    rw [hsame, ← take_append_drop prev (K.take (prev + es.length)), take_take,
      Nat.min_eq_left (by omega), ← hrange]
  -- the log holds the entries exactly when it agrees with the leader's prefix
  have hiff : es <+: L.drop prev ↔ L.take (prev + es.length) = K.take (prev + es.length) := by
    rw [hsplit, take_add, append_cancel_left_eq, prefix_iff_eq_take]
    exact eq_comm
  by_cases hpre : es <+: L.drop prev
  · rw [hkeep hpre]
    unfold overlay
    rw [if_pos (hiff.mp hpre)]
    exact ⟨rfl, fun hf => ⟨hf, rfl⟩⟩
  · rw [hcut hpre]
    unfold overlay
    rw [if_neg fun heq => hpre (hiff.mpr heq), hsplit]
    refine ⟨?_, fun hf => by cases hf⟩
    rw [drop_append_of_le_length (by rw [length_take]; omega), drop_take]

/-- What the append proves committed. -/
theorem append_commit
    (hmsg : AppendInv g sender recipient r.state.term request prev prevTerm es commit) :
    Protocol.Committed g.view r.state.term ((g.view.accept r.id (prev + es.length)).log r.id)
      (max r.state.commitIndex (min commit (prev + es.length))) := by
  have hd := h.durable
  have hover := overlay_commit h hmsg.leader (prev + es.length)
  have htake := overlay_take (g.view.log r.id) (g.view.leaderLog r.state.term) (prev + es.length)
  rw [accept_log, hd.term]
  rcases Nat.le_total (min commit (prev + es.length)) r.state.commitIndex with hle | hle
  · rw [Nat.max_eq_left hle]
    exact hd.commit.take_eq le_rfl hover
  · rw [Nat.max_eq_right hle]
    refine hmsg.commit.take_eq (Nat.min_le_left _ _) ?_
    exact take_eq_of_le htake (Nat.min_le_right _ _)

theorem takeAppend_good (hrole : r.role = .follower)
    (hmsg : AppendInv g sender recipient r.state.term request prev prevTerm es commit)
    (hmatch : r.state.termAt prev = some prevTerm) :
    Frame r (r.takeAppend prev es commit) ∧
      Evolves cfg r.id g { g with view := g.view.accept r.id (prev + es.length) } ∧
      Good cfg { g with view := g.view.accept r.id (prev + es.length) }
        (r.takeAppend prev es commit, output) ∧
      prev + es.length ≤ (g.view.accept r.id (prev + es.length)).acked r.id r.state.term := by
  have hd := h.durable
  obtain ⟨hlog, hkept⟩ := appendEntries_overlay h hmsg hmatch r.logChanged
  obtain ⟨hbase, _⟩ := hd.log.termAt_some hmatch
  generalize happ : appendEntries (prev - r.state.baseIndex) es
    (r.state.entries, r.logChanged) = app at hlog hkept
  obtain ⟨log, changed⟩ := app
  have hstate : (r.takeAppend prev es commit).state = { r.state with
      entries := log
      commitIndex := max r.state.commitIndex (min commit (prev + es.length)) } := by
    unfold takeAppend
    simp only [happ]
    split_ifs <;> rfl
  have hother : (r.takeAppend prev es commit).id = r.id ∧
      (r.takeAppend prev es commit).role = r.role ∧
      (r.takeAppend prev es commit).logChanged = changed ∧
      (r.takeAppend prev es commit).initialized = r.initialized ∧
      (r.takeAppend prev es commit).incarnation = r.incarnation ∧
      ∀ pending, (r.takeAppend prev es commit).incomingSnapshot = some pending →
        r.incomingSnapshot = some pending := by
    unfold takeAppend
    simp only [happ]
    split_ifs
    · exact ⟨rfl, rfl, rfl, rfl, rfl, fun _ hp => by cases hp⟩
    · exact ⟨rfl, rfl, rfl, rfl, rfl, fun _ hp => hp⟩
  obtain ⟨hid, hro, hch, hinit, hinc, hincoming⟩ := hother
  refine ⟨⟨hid, by rw [hstate], hinit, hinc, by rw [hstate]; exact le_max_left _ _, ?_⟩, ?_⟩
  · intro hk
    rw [hch] at hk
    obtain ⟨h1, h2⟩ := hkept hk
    exact ⟨h1, by rw [hstate]; exact h2, by rw [hstate]⟩
  refine accept_good h _ hmsg.leader hmsg.reach hid (by rw [hstate]) (by rw [hstate])
    (by rw [hstate]) (hro.trans hrole) ?_ ?_ ?_ hincoming
  · rw [hstate]
    refine ⟨?_, hlog⟩
    -- the cut lies below the commit index, where nothing changed
    have hover := overlay_commit h hmsg.leader (prev + es.length)
    rw [accept_log, hd.term]
    exact (logTerm_take_eq hover hd.base_commit).trans hd.log.base
  · rw [hstate]; exact hd.base_commit.trans (le_max_left _ _)
  · rw [hstate]; exact append_commit h hmsg

variable {term : ℕ}

theorem receiveAppend_refines
    (hmsg : AppendInv g sender r.id term request prev prevTerm es commit) :
    Refines cfg g r (r.receiveAppend sender term request prev prevTerm es commit output) := by
  unfold receiveAppend
  dsimp only
  split_ifs with hstale hmatch
  · exact refl (h.emit (by intro hf; cases hf))
  · exact (acceptLeader_refines h sender term).1.bind fun g₁ hg₁ =>
      refl (hg₁.emit (by intro hf; cases hf))
  · obtain ⟨⟨hframe, g₁, hev, hg₁⟩, hst, hrole⟩ := acceptLeader_refines h sender term
    generalize hr₁ : r.acceptLeader sender term output = s₁ at *
    obtain ⟨r₁, output₁⟩ := s₁
    have hterm : r₁.state.term = term := by
      rw [show r₁.state = _ from hst, follow_term (by omega)]
    have hid : r₁.id = r.id := hframe.id
    have hmsg₁ := hmsg.mono hev.le
    rw [← hterm] at hmsg₁
    obtain ⟨hframe₂, hev₂, hg₂, hack⟩ := takeAppend_good hg₁ hrole hmsg₁ (not_not.mp hmatch)
    have hid₂ : (r₁.takeAppend prev es commit).id = r₁.id := hframe₂.id
    refine ⟨hframe.trans hframe₂, _, hev.trans (hid ▸ hev₂), hg₂.emit ?_⟩
    intro _
    refine ⟨prev + es.length, ?_, ?_⟩
    · change g₁.request term request = some (.append (r₁.takeAppend prev es commit).id _)
      rw [hid₂, hid, ← hterm]; exact hmsg₁.issued
    · change _ ≤ (g₁.view.accept r₁.id _).acked (r₁.takeAppend prev es commit).id term
      rw [hid₂, ← hterm]; exact hack

/-! ## Acknowledgements -/

/-- A leader that tracks one peer differently. -/
theorem track_refines (hr : r.role = .leader) (peer : MemberId) {f : Progress → Progress}
    (hf : ∀ progress, ProgressInv g r.state.term peer progress →
      ProgressInv g r.state.term peer (f progress)) :
    Refines cfg g r ({ r with progress := r.progress.modify peer f }, output) :=
  ⟨.same rfl, g, Evolves.refl _ _,
    h.withLeader rfl rfl hr hr ((h.leading hr).modify peer fun progress hp =>
      hf progress ((h.leading hr).progress peer progress hp)) rfl⟩

variable {s : Stepped C}

theorem acknowledge_refines (hr : r.role = .leader) {last : ℕ}
    (hlast : last ≤ g.view.acked sender r.state.term)
    (hok : r.acknowledge sender last output = .ok s) : Refines cfg g r s := by
  unfold acknowledge at hok
  have htrack := track_refines h hr sender (f := fun progress =>
    { progress with
      matched := max progress.matched last
      next := max progress.next (max progress.matched last + 1)
      probing := false
      inFlight := progress.inFlight.filter fun flight => decide (last < flight.last) })
    fun progress hp => ⟨max_le hp.matched hlast, fun flight hflight =>
      hp.inFlight flight (mem_of_mem_filter hflight)⟩
  refine htrack.bind fun g₁ hg₁ => ?_
  obtain ⟨hadv, hrole⟩ := advanceCommit_refines hg₁ hr
  refine hadv.bind fun g₂ hg₂ => ?_
  dsimp only at hok
  split_ifs at hok with hmoved hmore
  · exact (broadcast_leads hg₂ hrole hok).refines
  · exact (sendAppend_leads hg₂ hrole hok).refines
  · cases hok; exact refl hg₂

omit h in
/-- The flight a request identity finds is one of those outstanding. -/
theorem pendingAppend_flight (h : LeaderInv g r) {peer : MemberId} {k last : ℕ}
    (hp : r.pendingAppend peer request = some (.append k prev last)) :
    g.request r.state.term request = some (.append peer last) := by
  unfold pendingAppend at hp
  obtain ⟨progress, hprog, hfind⟩ := Option.bind_eq_some_iff.mp hp
  have hmem := mem_of_find?_eq_some hfind
  have hk : k = request := by simpa using find?_some hfind
  have hflight := (h.progress peer progress hprog).inFlight _ hmem
  rw [← hk]; exact hflight

theorem receiveAppended_refines {conflict : ℕ} {success : Bool} (hmsg : success = true → ∃ last,
      g.request term request = some (.append sender last) ∧ last ≤ g.view.acked sender term)
    (hok : r.receiveAppended sender term request success conflict output = .ok s) :
    Refines cfg g r s := by
  unfold receiveAppended at hok
  by_cases hstale : term ≠ r.state.term ∨ r.role ≠ .leader
  · rw [if_pos hstale] at hok; cases hok; exact refl h
  rw [if_neg hstale] at hok
  obtain ⟨hterm, hr⟩ := (not_or.mp hstale).imp not_not.mp not_not.mp
  split at hok
  · rename_i k prev last hpending
    by_cases hsuccess : success = true
    · rw [if_pos hsuccess] at hok
      obtain ⟨last', hissued, hack⟩ := hmsg hsuccess
      rw [hterm, pendingAppend_flight (h.leading hr) hpending] at hissued
      cases hissued
      exact acknowledge_refines h hr (hterm ▸ hack) hok
    · rw [if_neg hsuccess] at hok
      refine (track_refines h hr sender fun progress hp => ?_).bind fun g₁ hg₁ =>
        (sendAppend_leads hg₁ hr hok).refines
      exact ⟨hp.matched, fun flight hflight => by cases hflight⟩
  · cases hok; exact refl h

theorem receiveSnapshotInstalled_refines (hmsg : ∃ last,
      g.request term request = some (.snapshot sender last) ∧ last ≤ g.view.acked sender term)
    (hok : r.receiveSnapshotInstalled sender term request output = .ok s) :
    Refines cfg g r s := by
  unfold receiveSnapshotInstalled at hok
  split_ifs at hok with hstale
  · cases hok; exact refl h
  obtain ⟨hterm, hr⟩ := (not_or.mp hstale).imp not_not.mp not_not.mp
  split at hok
  · rename_i expected cut hhead
    split_ifs at hok with hexp
    · obtain ⟨progress, hprog, hfirst⟩ := Option.bind_eq_some_iff.mp hhead
      have hflight := ((h.leading hr).progress sender progress hprog).inFlight _
        (mem_of_head? hfirst)
      obtain ⟨last, hissued, hack⟩ := hmsg
      rw [hterm, ← hexp, hflight.1] at hissued
      cases hissued
      exact acknowledge_refines h hr (hterm ▸ hack) hok
    · cases hok; exact refl h
  · cases hok; exact refl h

end FrankenGraph.Order

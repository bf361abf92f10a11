import FrankenGraph.Order.ClusterInvariant

/-!
# Runs keep the invariant

The read rounds of a run, and the invariant over whole runs.

Results:
* `Barrier.covers`: what a completed read round is good for.
* `ClusterInv.act`: one action keeps the invariant for a later ghost state.
* `ClusterInv.runs`, `ClusterInv.reachable`: so does a whole run.
-/

namespace FrankenGraph.Order

open Protocol List Option

variable {C : Type} [DecidableEq C] {cfg : Configuration} {g g' : Ghost C} {s s' : Cluster C}
  {m : MemberId}

/-! ## Read rounds -/

variable {r : Raft C} {round : ReadIndexRound}

section

omit [DecidableEq C]

/-- A barrier lies at or above everything counted when it began, once a quorum
had not moved past its term by then. -/
theorem Barrier.covers {g₀ : Ghost C} {owner : ReadOwner} {index : ℕ}
    (hb : Barrier cfg g₀ owner index)
    (hq : cfg.IsQuorum {x | g₀.view.cur x ≤ owner.term}) {i : ℕ} {e : Entry C}
    (hc : CommittedAt g₀ i e) : i ≤ index := by
  obtain ⟨hi, t, hit, _⟩ := hc
  have hinv := hb.inv.toInv
  have hchosen := hinv.commit_chosen (t := t) (by omega)
  rcases Nat.lt_trichotomy t owner.term with hlt | rfl | hgt
  · -- an earlier leader: its entries lie below the first entry of this term
    obtain ⟨f, hf, hft⟩ := hchosen.1
    have hag := hinv.chosen_complete hlt.le hb.leader hchosen
    rw [← hag.getElem? le_rfl] at hf
    obtain ⟨j, hj⟩ : ∃ j, index = j + 1 := by
      cases index with
      | zero => exact absurd (some.inj hb.own).symm hb.term
      | succ j => exact ⟨j, rfl⟩
    have hown := hb.own
    rw [hj] at hown
    simp only [logTerm, map_eq_some_iff] at hown
    obtain ⟨e', he', hte'⟩ := hown
    by_contra hgt
    have hsorted := hinv.rooted_sorted (hinv.leaderLog_rooted _)
      (show j ≤ g₀.view.commit t - 1 by omega) he' hf
    rw [hft] at hsorted
    change e'.term ≤ t at hsorted
    omega
  · exact hit.trans hb.commit
  · -- a later leader was elected by a quorum that had moved on
    obtain ⟨c, hl⟩ := hinv.leader_of_mem hchosen.1.lt
    obtain ⟨x, hx, hvote⟩ := (rules C cfg).inter hq (hinv.leader_votes hl)
    change g₀.view.cur x ≤ owner.term at hx
    have := hinv.voted_le (show g₀.view.voted x t = some c from hvote)
    omega

theorem mapError_available {u : Unit}
    (h : r.available.mapError ReadIndexError.raft = .ok u) : r.pending = none := by
  cases ha : r.available with
  | ok u => exact available_pending ha
  | error e => rw [ha] at h; cases h

/-- A leader issues a read round. -/
theorem beginReadIndex_spec {r' : Raft C} (h : r.beginReadIndex = .ok (round, r')) :
    r.pending = none ∧ r.role = .leader ∧ r.state.term ≠ 0 ∧
      r.state.termAt r.state.commitIndex = some r.state.term ∧
      r' = { r with request := r.request + 1 } ∧
      round = { owner := some
                  { incarnation := r.incarnation, member := r.id,
                    domain := r.state.configuration.domain,
                    configuration := r.state.configuration.identity, term := r.state.term,
                    round := r.request + 1 },
                configuration := r.state.configuration
                index := r.state.commitIndex
                acknowledged := .ofList [r.id] } := by
  unfold Raft.beginReadIndex at h
  simp only [bind_eq_ok] at h
  obtain ⟨_, havail, _, hrole, _, -, _, hterm, h⟩ := h
  rw [refuse_eq_ok, decide_eq_false_iff_not] at hrole hterm
  have hpending := mapError_available havail
  split at h
  · cases h
  rename_i k hk
  cases checkedAdd_eq_some hk
  cases h
  exact ⟨hpending, not_not.mp hrole, fun h0 => hterm (Or.inl h0),
    by by_contra hne; exact hterm (Or.inr hne), rfl, rfl⟩

end

theorem ClusterInv.addRound (h : ClusterInv cfg g s)
    (hround : RoundInv cfg g s.acks s.trace round s.trace.length) :
    ClusterInv cfg g { s with rounds := s.rounds ++ [(round, s.trace.length)] } :=
  { h with
    rounds := by
      intro x hx
      rcases mem_append.mp hx with hx | hx
      · exact h.rounds x hx
      · obtain rfl := mem_singleton.mp hx
        exact hround }

theorem ClusterInv.beginReadIndex (h : ClusterInv cfg g s) {r' : Raft C} (hr : s.machine m = some r)
    (hok : r.beginReadIndex = .ok (round, r')) :
    ∃ g', g.Le g' ∧ ClusterInv cfg g'
      { s.setMachine m r' with rounds := s.rounds ++ [(round, s.trace.length)] } := by
  obtain ⟨hpending, hrole, hterm, hown, rfl, rfl⟩ := beginReadIndex_spec hok
  have hset := (h.nodes m).settled hr hpending
  have hid := ((h.nodes m).machine r hr).1
  have hlead := hset.inv.leading hrole
  have hd := hset.inv.durable
  have hgood : Good cfg g (r, r.freshOutput) :=
    ⟨h.ghost, hset.inv, fun env henv => by cases henv⟩
  obtain ⟨hnew, hgood'⟩ := hgood.issue (q := .read) hrole
  have hev : Evolves cfg m g (g.issue r.state.term (r.request + 1) .read) :=
    Evolves.issue (hid ▸ hlead.leader) hnew
  have hquiet : ClusterInv cfg (g.issue r.state.term (r.request + 1) .read)
      (s.setMachine m { r with request := r.request + 1 }) := by
    refine h.quiet hev ⟨?_, fun r₂ hr₂ => ?_⟩ le_rfl
    · change Durable cfg _ m ((s.nodes m).durable cfg)
      rw [← hset.state, ← hid]
      exact hgood'.node.durable
    · cases hr₂
      refine ⟨hid, Or.inl ⟨hset.state, hgood'.node, fun id out hp => ?_⟩⟩
      rw [show r.pending = _ from hp] at hpending; cases hpending
  refine ⟨_, hev.le, hquiet.addRound ⟨le_rfl, hd.configuration, fun owner howner => ?_⟩⟩
  cases howner
  refine ⟨Ghost.issue_self _ _ _ _, _, Ghost.Le.refl _, ⟨hquiet.ghost, hlead.leader, hlead.commit,
    ?_, hterm⟩, fun obs hobs => hquiet.trace obs (mem_of_mem_take hobs), ?_, ?_⟩
  · have hlog := (hd.log.termAt_some hown).2
    rw [hgood.leaderLog_eq hrole] at hlog
    exact hlog
  · intro x hx
    have hx : r.id = x := by simpa using hx
    rw [← hx]
    exact hd.term.le
  · -- the identity is new, so nobody can have acknowledged it
    intro ack hack ht hk
    have := h.acks ack hack
    rw [ht, hk] at this
    rw [show g.request r.state.term (r.request + 1) = _ from this] at hnew
    cases hnew

omit [DecidableEq C] in
theorem activeOwner_spec {owner : ReadOwner}
    (h : round.activeOwner r = .ok owner) : round.owner = some owner := by
  unfold ReadIndexRound.activeOwner at h
  split at h
  · cases h
  rename_i o ho
  obtain ⟨_, _, h⟩ := bind_eq_ok.mp h
  cases h
  exact ho

variable {began : ℕ}

theorem ClusterInv.sendProbes (h : ClusterInv cfg g s) (hround : (round, began) ∈ s.rounds)
    {probes : List ReadIndexProbe} (hok : round.probes r = .ok probes) :
    ClusterInv cfg g { s with probes := s.probes ++ probes } :=
  { h with
    probes := by
      intro probe hprobe
      rcases mem_append.mp hprobe with hprobe | hprobe
      · exact h.probes probe hprobe
      · unfold ReadIndexRound.probes at hok
        obtain ⟨owner, howner, hok⟩ := bind_eq_ok.mp hok
        cases hok
        obtain ⟨member, _, rfl⟩ := mem_map.mp hprobe
        exact ((h.rounds _ hround).opened owner (activeOwner_spec howner)).issued }

variable {ack : ReadIndexAck}

omit [DecidableEq C] in
theorem acknowledgeReadIndex_spec {probe : ReadIndexProbe}
    (h : r.acknowledgeReadIndex probe = .ok ack) :
    r.pending = none ∧ ack.sender = r.id ∧ ack.term = probe.term ∧ ack.round = probe.round ∧
      r.state.term = probe.term := by
  unfold Raft.acknowledgeReadIndex at h
  simp only [bind_eq_ok] at h
  obtain ⟨_, havail, _, -, _, -, _, -, _, -, _, -, _, -, _, hterm, _, -, h⟩ := h
  rw [refuse_eq_ok, decide_eq_false_iff_not, not_not] at hterm
  cases h
  exact ⟨mapError_available havail, rfl, rfl, rfl, hterm.symm⟩

theorem ClusterInv.answerProbe (h : ClusterInv cfg g s) (hr : s.machine m = some r)
    {probe : ReadIndexProbe} (hprobe : probe ∈ s.probes)
    (hok : r.acknowledgeReadIndex probe = .ok ack) :
    ClusterInv cfg g { s with acks := s.acks ++ [ack] } := by
  obtain ⟨hpending, hsender, hterm, hk, hcur⟩ := acknowledgeReadIndex_spec hok
  have hset := (h.nodes m).settled hr hpending
  refine { h with acks := ?_, rounds := ?_ }
  · intro a ha
    rcases mem_append.mp ha with ha | ha
    · exact h.acks a ha
    · obtain rfl := mem_singleton.mp ha
      rw [hterm, hk]; exact h.probes probe hprobe
  · intro x hx
    obtain ⟨hwithin, hcfg, hopened⟩ := h.rounds x hx
    refine ⟨hwithin, hcfg, fun owner howner => ?_⟩
    obtain ⟨hissued, g₀, hle, hb, hbefore, hacked, hacks⟩ := hopened owner howner
    refine ⟨hissued, g₀, hle, hb, hbefore, hacked, fun a ha ht hka => ?_⟩
    rcases mem_append.mp ha with ha | ha
    · exact hacks a ha ht hka
    · -- the follower is in the round's term now, so it was not beyond it before
      obtain rfl := mem_singleton.mp ha
      calc g₀.view.cur a.sender ≤ g.view.cur a.sender := hle.view.cur _
        _ = r.state.term := by rw [hsender]; exact hset.inv.durable.term
        _ = owner.term := by rw [hcur, ← hterm, ht]
        _ ≤ owner.term := le_rfl

/-- Replacing a round. -/
theorem ClusterInv.setRound (h : ClusterInv cfg g s) {k : ℕ}
    (hround : RoundInv cfg g s.acks s.trace round began) :
    ClusterInv cfg g { s with rounds := s.rounds.set k (round, began) } :=
  { h with
    rounds := by
      intro x hx
      rcases mem_or_eq_of_mem_set hx with hx | rfl
      · exact h.rounds x hx
      · exact hround }

variable {round' : ReadIndexRound}

omit [DecidableEq C] in
theorem RoundInv.acknowledge {acks : List ReadIndexAck} {trace : List (Observation C)}
    (h : RoundInv cfg g acks trace round began) (hack : ack ∈ acks)
    (hok : round.acknowledge r ack = .ok round') : RoundInv cfg g acks trace round' began := by
  unfold ReadIndexRound.acknowledge at hok
  simp only [bind_eq_ok] at hok
  obtain ⟨owner, howner, _, -, _, -, _, -, _, -, _, -, _, hterm, _, hk, hok⟩ := hok
  rw [refuse_eq_ok, decide_eq_false_iff_not, not_not] at hterm hk
  cases hok
  refine ⟨h.within, h.configuration, fun o ho => ?_⟩
  cases (activeOwner_spec howner).symm.trans ho
  obtain ⟨hissued, g₀, hle, hb, hbefore, hacked, hacks⟩ := h.opened owner ho
  refine ⟨hissued, g₀, hle, hb, hbefore, fun x hx => ?_, hacks⟩
  rcases Std.ExtTreeSet.mem_insert.mp hx with hx | hx
  · rw [← Std.LawfulEqCmp.eq_of_compare hx]
    exact hacks ack hack hterm hk
  · exact hacked x hx

omit [DecidableEq C] in
/-- A round that completes covers every record released before it began. -/
theorem RoundInv.complete {acks : List ReadIndexAck} {trace : List (Observation C)}
    {read : Option ReadIndex} (h : RoundInv cfg g acks trace round began)
    (hok : round.tryComplete r = .ok (read, round')) :
    RoundInv cfg g acks trace round' began ∧ ∀ b, read = some b →
      ∀ x record, .released x record ∈ trace.take began → record.index ≤ b.index := by
  unfold ReadIndexRound.tryComplete at hok
  obtain ⟨owner, howner, hok⟩ := bind_eq_ok.mp hok
  split_ifs at hok with hquorum
  · cases hok
    exact ⟨h, fun b hb => by cases hb⟩
  · cases hok
    refine ⟨⟨h.within, h.configuration, fun o ho => by cases ho⟩, fun b hb x record hrec => ?_⟩
    cases hb
    obtain ⟨_, g₀, hle, hbar, hbefore, hacked, _⟩ := h.opened owner (activeOwner_spec howner)
    have hq : cfg.quorum round.acknowledged = true := by
      rw [h.configuration] at hquorum; simpa using hquorum
    refine hbar.covers (Configuration.IsQuorum.mono ?_ (Configuration.quorum_isQuorum hq))
      (hbefore _ hrec)
    exact fun y hy => hacked y hy

theorem ClusterInv.tryComplete (h : ClusterInv cfg g s) {k : ℕ} {read : Option ReadIndex}
    (hround : (round, began) ∈ s.rounds) (hok : round.tryComplete r = .ok (read, round')) :
    ClusterInv cfg g ({ s with rounds := s.rounds.set k (round', began) }.observe
      (read.toList.map fun read : ReadIndex => .readCompleted read.index began)) := by
  obtain ⟨hround', hcovers⟩ := (h.rounds _ hround).complete hok
  have hwithin := hround'.within
  have hset := h.setRound (k := k) hround'
  refine { hset with trace := ?_, kept := ?_, rounds := ?_, reads := ?_ }
  · intro obs hobs
    rcases mem_append.mp hobs with hobs | hobs
    · exact h.trace obs hobs
    · obtain ⟨b, _, rfl⟩ := mem_map.mp hobs
      trivial
  · intro x record hrec
    rcases mem_append.mp hrec with hrec | hrec
    · exact h.kept x record hrec
    · simp at hrec
  · exact fun x hx => (hset.rounds x hx).mono (Ghost.Le.refl g)
  · intro index start hread
    have hold : ∀ n ≤ s.trace.length, n ≤ (s.trace ++ read.toList.map fun read : ReadIndex =>
        Observation.readCompleted (C := C) read.index began).length := fun n hn => by
      rw [length_append]; omega
    rcases mem_append.mp hread with hread | hread
    · obtain ⟨hlen, hbound⟩ := h.reads index start hread
      refine ⟨hold start hlen, ?_⟩
      change ∀ x record, .released x record ∈ (s.trace ++ _).take start → _
      rw [take_append_of_le_length hlen]
      exact hbound
    · obtain ⟨b, hb, heq⟩ := mem_map.mp hread
      cases heq
      refine ⟨hold began hwithin, ?_⟩
      change ∀ x record, .released x record ∈ (s.trace ++ _).take began → _
      rw [take_append_of_le_length hwithin]
      exact hcovers b (mem_toList.mp hb)

/-! ## Whole runs -/

theorem ClusterInv.init : ClusterInv cfg (Ghost.init : Ghost C) Cluster.init where
  ghost := { init_inv with held := init_held, led := fun hq => by cases hq }
  nodes _ :=
    { durable :=
        { configuration := rfl
          term := rfl
          vote := rfl
          log := ⟨rfl, rfl⟩
          base_commit := le_rfl
          commit := Or.inl rfl }
      machine := fun _ hr => by cases hr }
  network _ h := by cases h
  trace _ h := by cases h
  kept _ _ h := by cases h
  probes _ h := by cases h
  acks _ h := by cases h
  rounds _ h := by cases h
  reads _ _ h := by cases h

/-- **One action keeps the invariant.** -/
theorem ClusterInv.act (h : ClusterInv cfg g s) {a : Action C} (hact : s.act cfg a = some s') :
    ∃ g', g.Le g' ∧ ClusterInv cfg g' s' := by
  have same : ClusterInv cfg g s' → ∃ g', g.Le g' ∧ ClusterInv cfg g' s' :=
    fun h' => ⟨g, Ghost.Le.refl g, h'⟩
  cases a with
  | start member limits => exact same (h.start hact)
  | crash member => cases hact; exact same h.crash
  | step member ev => exact h.step hact
  | publish member => exact h.publish hact
  | persisted member id => exact same (h.persisted hact)
  | publicationFailed member =>
    obtain ⟨r, hr, rfl⟩ := map_eq_some_iff.mp hact
    exact same (h.publicationFailed hr)
  | configureAppendPipeline member maximum =>
    obtain ⟨r, hr, hact⟩ := bind_eq_some_iff.mp hact
    split at hact
    · rename_i r' hok; cases hact; exact same (h.configure hr hok)
    · cases hact
  | committedAfter member applied =>
    obtain ⟨r, hr, hact⟩ := bind_eq_some_iff.mp hact
    split at hact
    · rename_i records hok; cases hact; exact same (h.committedAfter hr hok)
    · cases hact
  | beginReadIndex member =>
    obtain ⟨r, hr, hact⟩ := bind_eq_some_iff.mp hact
    split at hact
    · rename_i round r' hok; cases hact; exact h.beginReadIndex hr hok
    · cases hact
  | probes member k =>
    obtain ⟨r, hr, hact⟩ := bind_eq_some_iff.mp hact
    obtain ⟨⟨round, began⟩, hk, hact⟩ := bind_eq_some_iff.mp hact
    dsimp only at hact
    split at hact
    · rename_i probes hok; cases hact
      exact same (h.sendProbes (mem_of_getElem? hk) hok)
    · cases hact
  | acknowledgeReadIndex member probe =>
    obtain ⟨r, hr, hact⟩ := bind_eq_some_iff.mp hact
    split_ifs at hact with hprobe
    split at hact
    · rename_i ack hok; cases hact; exact same (h.answerProbe hr hprobe hok)
    · cases hact
  | acknowledge member k ack =>
    obtain ⟨r, hr, hact⟩ := bind_eq_some_iff.mp hact
    obtain ⟨⟨round, began⟩, hk, hact⟩ := bind_eq_some_iff.mp hact
    dsimp only at hact
    split_ifs at hact with hack
    split at hact
    · rename_i round' hok; cases hact
      exact same (h.setRound ((h.rounds _ (mem_of_getElem? hk)).acknowledge hack hok))
    · cases hact
  | tryComplete member k =>
    obtain ⟨r, hr, hact⟩ := bind_eq_some_iff.mp hact
    obtain ⟨⟨round, began⟩, hk, hact⟩ := bind_eq_some_iff.mp hact
    dsimp only at hact
    split at hact
    · rename_i read round' hok; cases hact
      exact same (h.tryComplete (mem_of_getElem? hk) hok)
    · cases hact

/-- **A run keeps the invariant.** -/
theorem ClusterInv.runs (h : ClusterInv cfg g s) (hrun : Cluster.Runs cfg s s') :
    ∃ g', g.Le g' ∧ ClusterInv cfg g' s' := by
  induction hrun with
  | refl => exact ⟨g, Ghost.Le.refl g, h⟩
  | tail _ hact ih =>
    obtain ⟨g₁, hle, h₁⟩ := ih
    obtain ⟨a, hact⟩ := hact
    obtain ⟨g₂, hle', h₂⟩ := h₁.act hact
    exact ⟨g₂, hle.trans hle', h₂⟩

theorem ClusterInv.reachable (hs : Cluster.Reachable cfg s) : ∃ g, ClusterInv cfg g s := by
  obtain ⟨g, _, h⟩ := ClusterInv.init.runs hs
  exact ⟨g, h⟩

end FrankenGraph.Order

import FrankenGraph.Order.Cluster
import FrankenGraph.Order.RefineStep

/-!
# The invariant of a run

Every reachable cluster has a ghost state of the abstract protocol that its
members, messages and trace agree with. A kernel whose pending state is not yet
on the medium has not acted in the protocol: the invariant remembers the machine
before that step, and the step's protocol actions happen when its state is
published.

Results:
* `ClusterInv.update`: what one member does keeps the invariant.
* `ClusterInv.start`, `ClusterInv.step`, `ClusterInv.publish` and
  `ClusterInv.persisted`: the actions of the publication gate.
-/

namespace FrankenGraph.Order

open Protocol List Function

variable {C : Type} [DecidableEq C] (cfg : Configuration)

/-! ## Members -/

/-- The state a member starts from after a crash. -/
def Node.durable (node : Node C) : PersistentState C := node.published.getD (.initial cfg)

/-- The state of the running kernel is on the medium. -/
structure Settled (g : Ghost C) (node : Node C) (r : Raft C) : Prop where
  state : r.state = node.durable cfg
  inv : NodeInv cfg g r
  output : ∀ id out, r.pending = some (id, out) → OutputInv g r out

/-- The running kernel is one step ahead of the medium. -/
structure Speculative (g : Ghost C) (node : Node C) (r : Raft C) : Prop where
  uncovered : node.covered = false
  pending : r.pending ≠ none
  step : ∃ r₀ ev p r₁, r₀.id = r.id ∧ r₀.state = node.durable cfg ∧ NodeInv cfg g r₀ ∧
    (∀ env, ev = .receive env → MsgInv g env) ∧ r₀.step ev = (.ok p, r₁) ∧
    r = { r₁ with poisoned := r.poisoned }

structure NodeOk (g : Ghost C) (m : MemberId) (node : Node C) : Prop where
  durable : Durable cfg g m (node.durable cfg)
  machine : ∀ r, node.machine = some r → r.id = m ∧ (Settled cfg g node r ∨ Speculative cfg g node r)

/-! ## Observations -/

omit [DecidableEq C] in
/-- The leader of some term has counted entry `e` at index `i`. -/
def CommittedAt (g : Ghost C) (i : ℕ) (e : Entry C) : Prop :=
  0 < i ∧ ∃ t, i ≤ g.view.commit t ∧ (g.view.leaderLog t)[i - 1]? = some e

/-- What holds for ever about a state that was published in a role. -/
structure PublishedInv (g : Ghost C) (m : MemberId) (role : Role) (st : PersistentState C) :
    Prop where
  log : ∃ L, LogRep L st ∧ Protocol.Committed g.view st.term L st.commitIndex ∧
    (role = .leader → g.view.leader st.term = some m ∧
      ∃ S, g.view.stood m st.term = some S ∧ S <+: L)

def ObsInv (g : Ghost C) : Observation C → Prop
  | .released _ record => CommittedAt g record.index record.entry
  | .published m role st => PublishedInv g m role st
  | .readCompleted _ _ => True

/-! ## Read rounds -/

/-- A leader began a read round at `index` in the ghost state `g₀`. -/
structure Barrier (g₀ : Ghost C) (owner : ReadOwner) (index : ℕ) : Prop where
  inv : GhostInv cfg g₀
  leader : g₀.view.leader owner.term = some owner.member
  commit : g₀.view.commit owner.term ≤ index
  own : logTerm (g₀.view.leaderLog owner.term) index = some owner.term
  term : owner.term ≠ 0

/-- A round that is still open: `g₀` is the ghost state in which it began, and
every acknowledgement of it was given later. -/
structure OpenRound (g : Ghost C) (acks : List ReadIndexAck) (before : List (Observation C))
    (round : ReadIndexRound) (owner : ReadOwner) : Prop where
  issued : g.request owner.term owner.round = some .read
  began : ∃ g₀ : Ghost C, g₀.Le g ∧ Barrier cfg g₀ owner round.index ∧
    (∀ obs ∈ before, ObsInv g₀ obs) ∧
    (∀ x ∈ round.acknowledged, g₀.view.cur x ≤ owner.term) ∧
    ∀ ack ∈ acks, ack.term = owner.term → ack.round = owner.round →
      g₀.view.cur ack.sender ≤ owner.term

structure RoundInv (g : Ghost C) (acks : List ReadIndexAck) (trace : List (Observation C))
    (round : ReadIndexRound) (began : ℕ) : Prop where
  within : began ≤ trace.length
  configuration : round.configuration = cfg
  opened : ∀ owner, round.owner = some owner →
    OpenRound cfg g acks (trace.take began) round owner

/-! ## The invariant -/

structure ClusterInv (g : Ghost C) (s : Cluster C) : Prop where
  ghost : GhostInv cfg g
  nodes : ∀ m, NodeOk cfg g m (s.nodes m)
  network : ∀ env ∈ s.network, MsgInv g env
  trace : ∀ obs ∈ s.trace, ObsInv g obs
  kept : ∀ m record, .released m record ∈ s.trace →
    record.index ≤ ((s.nodes m).durable cfg).commitIndex
  probes : ∀ probe ∈ s.probes, g.request probe.term probe.round = some .read
  acks : ∀ ack ∈ s.acks, g.request ack.term ack.round = some .read
  rounds : ∀ x ∈ s.rounds, RoundInv cfg g s.acks s.trace x.1 x.2
  reads : ∀ index began, .readCompleted index began ∈ s.trace → began ≤ s.trace.length ∧
    ∀ m record, .released m record ∈ s.trace.take began → record.index ≤ index

variable {cfg} {g g' : Ghost C} {s s' : Cluster C} {m : MemberId}

/-! ## Growth of the ghost state -/

variable {r : Raft C}

section

omit [DecidableEq C]

variable (hle : g.Le g')
include hle

theorem CommittedAt.mono {i : ℕ} {e : Entry C} (h : CommittedAt g i e) : CommittedAt g' i e := by
  obtain ⟨hi, t, hc, he⟩ := h
  refine ⟨hi, t, hc.trans (hle.view.commit t), ?_⟩
  rw [← (Agree.extend (hle.view.leaderLog t) (List.getElem?_eq_some_iff.mp he).1).getElem?
    le_rfl, he]

theorem PublishedInv.mono {role : Role} {st : PersistentState C}
    (h : PublishedInv g m role st) : PublishedInv g' m role st := by
  obtain ⟨L, hrep, hcommit, hlead⟩ := h.log
  refine ⟨L, hrep, hcommit.mono hle.view le_rfl, fun hr => ?_⟩
  obtain ⟨hl, S, hst, hpre⟩ := hlead hr
  exact ⟨hle.view.leader hl, S, hle.view.stood hst, hpre⟩

theorem ObsInv.mono {obs : Observation C} (h : ObsInv g obs) : ObsInv g' obs := by
  cases obs with
  | released member record => exact CommittedAt.mono hle h
  | published member role st => exact PublishedInv.mono hle h
  | readCompleted index began => trivial

theorem OutputInv.mono {out : Output C} (h : OutputInv g r out) : OutputInv g' r out :=
  ⟨fun env henv => (h.sent env henv).mono hle, h.committed⟩

theorem OpenRound.mono {acks : List ReadIndexAck} {before : List (Observation C)}
    {round : ReadIndexRound} {owner : ReadOwner} (h : OpenRound cfg g acks before round owner) :
    OpenRound cfg g' acks before round owner := by
  obtain ⟨g₀, hg₀, hrest⟩ := h.began
  exact ⟨hle.request h.issued, g₀, hg₀.trans hle, hrest⟩

end

variable {node : Node C}

/-- A member is not disturbed by the actions of another. -/
theorem NodeOk.evolve {x : MemberId} (he : Evolves cfg m g g') (hx : x ≠ m)
    (h : NodeOk cfg g x node) : NodeOk cfg g' x node where
  durable := h.durable.evolve he hx
  machine r hr := by
    obtain ⟨hid, hsettled | hspec⟩ := h.machine r hr
    · exact ⟨hid, Or.inl ⟨hsettled.state, hsettled.inv.evolve he (hid ▸ hx),
        fun id out hp => (hsettled.output id out hp).mono he.le⟩⟩
    · obtain ⟨r₀, ev, p, r₁, hid₀, hst, hinv, hmsg, hstep⟩ := hspec.step
      refine ⟨hid, Or.inr ⟨hspec.uncovered, hspec.pending, r₀, ev, p, r₁, hid₀, hst, ?_,
        fun env henv => (hmsg env henv).mono he.le, hstep⟩⟩
      exact hinv.evolve he (by rw [hid₀, hid]; exact hx)

/-! ## Actions of one member -/

omit [DecidableEq C] in
theorem RoundInv.mono (hle : g.Le g') {acks : List ReadIndexAck}
    {trace seen : List (Observation C)} {round : ReadIndexRound} {began : ℕ}
    (h : RoundInv cfg g acks trace round began) :
    RoundInv cfg g' acks (trace ++ seen) round began where
  within := by rw [length_append]; exact h.within.trans (Nat.le_add_right _ _)
  configuration := h.configuration
  opened owner ho := by
    rw [take_append_of_le_length h.within]
    exact (h.opened owner ho).mono hle

/-- Member `m` acts: its part of the cluster changes, and it releases messages and
records of its own. -/
theorem ClusterInv.update (h : ClusterInv cfg g s) (he : Evolves cfg m g g')
    (msgs : List (Envelope C)) (seen : List (Observation C)) (hnode : NodeOk cfg g' m node)
    (hcommit : ((s.nodes m).durable cfg).commitIndex ≤ (node.durable cfg).commitIndex)
    (hmsgs : ∀ env ∈ msgs, MsgInv g' env) (hseen : ∀ obs ∈ seen, ObsInv g' obs)
    (hreleased : ∀ x record, .released x record ∈ seen →
      x = m ∧ record.index ≤ (node.durable cfg).commitIndex)
    (hreads : ∀ index began, .readCompleted index began ∉ seen)
    (hs : s'.nodes = update s.nodes m node) (hnetwork : s'.network = s.network ++ msgs)
    (htrace : s'.trace = s.trace ++ seen) (hprobes : s'.probes = s.probes)
    (hacks : s'.acks = s.acks) (hrounds : s'.rounds = s.rounds) : ClusterInv cfg g' s' := by
  have hle := he.le
  have hdurable : ∀ x, ((s.nodes x).durable cfg).commitIndex ≤
      ((s'.nodes x).durable cfg).commitIndex := by
    intro x
    rw [hs]
    by_cases hx : x = m
    · rw [hx, update_self]; exact hcommit
    · rw [update_of_ne hx]
  refine ⟨he.inv h.ghost, ?_, ?_, ?_, ?_, ?_, ?_, ?_, ?_⟩
  · intro x
    rw [hs]
    by_cases hx : x = m
    · rw [hx, update_self]; exact hnode
    · rw [update_of_ne hx]; exact (h.nodes x).evolve he hx
  · intro env henv
    rw [hnetwork, mem_append] at henv
    rcases henv with henv | henv
    · exact (h.network env henv).mono hle
    · exact hmsgs env henv
  · intro obs hobs
    rw [htrace, mem_append] at hobs
    rcases hobs with hobs | hobs
    · exact (h.trace obs hobs).mono hle
    · exact hseen obs hobs
  · intro x record hrec
    rw [htrace, mem_append] at hrec
    rcases hrec with hrec | hrec
    · exact (h.kept x record hrec).trans (hdurable x)
    · obtain ⟨rfl, hidx⟩ := hreleased x record hrec
      rw [hs, update_self]; exact hidx
  · rw [hprobes]; exact fun probe hp => hle.request (h.probes probe hp)
  · rw [hacks]; exact fun ack ha => hle.request (h.acks ack ha)
  · rw [hrounds, hacks, htrace]; exact fun x hx => (h.rounds x hx).mono hle
  · intro index began hread
    rw [htrace, mem_append] at hread
    obtain ⟨hlen, hbound⟩ := h.reads index began (hread.resolve_right (hreads index began))
    rw [htrace, take_append_of_le_length hlen, length_append]
    exact ⟨hlen.trans (Nat.le_add_right _ _), hbound⟩

/-- Member `m` acts without releasing anything. -/
theorem ClusterInv.quiet (h : ClusterInv cfg g s) (he : Evolves cfg m g g')
    (hnode : NodeOk cfg g' m node)
    (hcommit : ((s.nodes m).durable cfg).commitIndex ≤ (node.durable cfg).commitIndex) :
    ClusterInv cfg g' (s.setNode m node) :=
  h.update he [] [] hnode hcommit (fun _ hm => by cases hm)
    (fun _ ho => by cases ho) (fun _ _ hr => by cases hr) (fun _ _ hr => by cases hr) rfl
    (append_nil _).symm (append_nil _).symm rfl rfl rfl

/-! ## What a settled kernel shows -/

section

omit [DecidableEq C]

/-- A record that a member's durable state holds has been counted. -/
theorem Durable.committedAt {st : PersistentState C} (h : Durable cfg g m st)
    {record : Committed C} (hrec : Holds st record) : CommittedAt g record.index record.entry := by
  obtain ⟨hle, hentry⟩ := hrec
  obtain ⟨hbase, hentry⟩ := h.log.entryAt_some hentry
  refine ⟨by omega, ?_⟩
  rcases h.commit with h0 | ⟨t, _, hn, _, htake⟩
  · omega
  · refine ⟨t, hle.trans hn, ?_⟩
    have hag : Agree (g.view.log m) (g.view.leaderLog t) (st.commitIndex - 1) := by
      unfold Agree
      rw [Nat.sub_add_cancel (by omega)]; exact htake
    rw [← hag.getElem? (by omega), hentry]

/-- What the state of a kernel that represents the view keeps for ever. -/
theorem NodeInv.publishedInv (h : NodeInv cfg g r) (hinv : GhostInv cfg g) :
    PublishedInv g r.id r.role r.state := by
  refine ⟨g.view.log r.id, h.durable.log, h.durable.commit, fun hr => ?_⟩
  have hlead := h.leading hr
  obtain ⟨S, own, hst, hlog, _⟩ := hinv.leader_stood hlead.leader
  refine ⟨hlead.leader, S, hst, ?_⟩
  rw [hinv.leader_log hlead.leader h.durable.term, hlog]
  exact prefix_append _ _

theorem NodeInv.ofFollower (hd : Durable cfg g r.id r.state) (hrole : r.role = .follower)
    (hincoming : r.incomingSnapshot = none) : NodeInv cfg g r where
  durable := hd
  candidate hr := absurd (hrole.symm.trans hr) (by decide)
  leading hr := absurd (hrole.symm.trans hr) (by decide)
  incoming pending hp := by rw [hincoming] at hp; cases hp

end

theorem NodeOk.settled (h : NodeOk cfg g m node) (hr : node.machine = some r)
    (hp : r.pending = none) : Settled cfg g node r :=
  (h.machine r hr).2.resolve_right fun hspec => hspec.pending hp

variable {r' : Raft C}

variable {limits : Limits}

section

omit [DecidableEq C]

/-- A kernel that differs from a settled one in fields that are not represented. -/
theorem Settled.congr (h : Settled cfg g node r) (hrep : r'.represented = r.represented)
    (hrequest : r'.request = r.request) (hincoming : r'.incomingSnapshot = r.incomingSnapshot)
    (hpending : r'.pending = none ∨ r'.pending = r.pending) : Settled cfg g node r' where
  state := (congrArg (fun x => x.2.1) hrep).trans h.state
  inv := h.inv.congr hrep hrequest.ge (fun _ hp => by rw [← hincoming]; exact hp)
  output id out hp := by
    have hstate : r'.state = r.state := congrArg (fun x => x.2.1) hrep
    rcases hpending with hnone | hsame
    · rw [hnone] at hp; cases hp
    · obtain ⟨h1, h2⟩ := h.output id out (hsame ▸ hp)
      exact ⟨h1, by rw [hstate]; exact h2⟩

/-! ## Starting and crashing -/

theorem recover_spec {id : MemberId} {state : PersistentState C} {incarnation : ℕ}
    (h : Raft.recover id state limits incarnation = .ok r) :
    r.id = id ∧ r.state = state ∧ r.role = .follower ∧ r.incomingSnapshot = none ∧
      r.pending = none := by
  unfold Raft.recover at h
  simp only [bind_eq_ok] at h
  obtain ⟨_, -, _, -, _, -, _, -, _, -, h⟩ := h
  cases h
  exact ⟨rfl, rfl, rfl, rfl, rfl⟩

theorem new_spec {id : MemberId} {incarnation : ℕ}
    (h : Raft.new id cfg limits incarnation = .ok r) :
    r.id = id ∧ r.state = .initial cfg ∧ r.role = .follower ∧ r.incomingSnapshot = none ∧
      r.pending = none := by
  unfold Raft.new at h
  obtain ⟨node, hnode, h⟩ := bind_eq_ok.mp h
  cases h
  obtain ⟨hid, hstate, hrole, hincoming, hpending⟩ := recover_spec hnode
  exact ⟨hid, hstate, hrole, hincoming, hpending⟩

end

variable (h : ClusterInv cfg g s)
include h

theorem ClusterInv.start (hact : s.start cfg m limits = some s') : ClusterInv cfg g s' := by
  unfold Cluster.start at hact
  dsimp only at hact
  split at hact
  · cases hact
  rename_i r hbuilt
  have hspec : r.id = m ∧ r.state = (s.nodes m).durable cfg ∧ r.role = .follower ∧
      r.incomingSnapshot = none ∧ r.pending = none := by
    unfold Node.durable
    cases hpub : (s.nodes m).published with
    | none => rw [hpub] at hbuilt; exact new_spec hbuilt
    | some state => rw [hpub] at hbuilt; exact recover_spec hbuilt
  obtain ⟨hid, hstate, hrole, hincoming, hpending⟩ := hspec
  cases hact
  have hd := (h.nodes m).durable
  have hok : NodeOk cfg g m { s.nodes m with machine := some r, covered := false } := by
    refine ⟨hd, fun r' hr' => ?_⟩
    cases hr'
    refine ⟨hid, Or.inl ⟨hstate, .ofFollower (by rw [hid, hstate]; exact hd) hrole hincoming, ?_⟩⟩
    intro id out hp
    rw [hpending] at hp; cases hp
  exact { h.quiet (Evolves.refl m g) hok le_rfl with }

theorem ClusterInv.crash : ClusterInv cfg g
    (s.setNode m { s.nodes m with machine := none, covered := false }) :=
  h.quiet (Evolves.refl m g) ⟨(h.nodes m).durable, fun _ hr => by cases hr⟩ le_rfl

/-! ## Steps and publications -/

/-- The running kernel is replaced by one that is settled too. -/
theorem ClusterInv.setSettled (hid : r'.id = m)
    (hset : Settled cfg g (s.nodes m) r') : ClusterInv cfg g (s.setMachine m r') := by
  refine h.quiet (Evolves.refl m g) ⟨(h.nodes m).durable, fun r hr => ?_⟩ le_rfl
  cases hr
  exact ⟨hid, Or.inl ⟨hset.state, hset.inv, hset.output⟩⟩

/-- A member's kernel is now `r'`, whose state is durable, after acting in the
protocol. -/
theorem ClusterInv.settle (he : Evolves cfg m g g') (hid : r'.id = m)
    (hmachine : node.machine = some r') (hset : Settled cfg g' node r')
    (hcommit : ((s.nodes m).durable cfg).commitIndex ≤ (node.durable cfg).commitIndex) :
    ClusterInv cfg g' ((s.setNode m node).observe [.published m r'.role r'.state]) := by
  have hok : NodeOk cfg g' m node := by
    refine ⟨?_, fun r hr => ?_⟩
    · rw [← hset.state, ← hid]; exact hset.inv.durable
    · rw [hmachine] at hr; cases hr
      exact ⟨hid, Or.inl hset⟩
  refine h.update he [] [.published m r'.role r'.state] hok hcommit (fun _ hm => by cases hm) ?_ ?_ ?_ rfl
    (append_nil _).symm rfl rfl rfl rfl
  · intro obs hobs
    obtain rfl := mem_singleton.mp hobs
    rw [← hid]; exact hset.inv.publishedInv (he.inv h.ghost)
  · intro x record hmem
    simp at hmem
  · intro index began hmem
    simp at hmem

theorem ClusterInv.step {ev : Event C}
    (hact : s.step m ev = some s') : ∃ g', g.Le g' ∧ ClusterInv cfg g' s' := by
  unfold Cluster.step at hact
  dsimp only at hact
  split_ifs at hact with hdeliver
  have hmsg : ∀ env, ev = .receive env → MsgInv g env := by
    rintro env rfl
    exact h.network env (by simpa using hdeliver)
  obtain ⟨r, hr, hact⟩ := Option.map_eq_some_iff.mp hact
  subst hact
  have hnode := h.nodes m
  obtain ⟨hid, hcase⟩ := hnode.machine r hr
  rcases hstep : r.step ev with ⟨error | p, r'⟩
  · -- a refused or a failed step
    refine ⟨g, Ghost.Le.refl g, ?_⟩
    rcases step_error hstep with rfl | ⟨hpending, generation, rfl⟩
    · refine h.quiet (Evolves.refl m g) ⟨hnode.durable, fun r₂ hr₂ => ?_⟩ le_rfl
      cases hr₂
      exact ⟨hid, hcase.imp (fun hs => ⟨hs.state, hs.inv, hs.output⟩)
        fun hs => ⟨hs.uncovered, hs.pending, hs.step⟩⟩
    · exact h.setSettled hid ((hnode.settled hr hpending).congr rfl rfl rfl
        (Or.inr rfl))
  obtain ⟨hpending, _⟩ := step_ok hstep
  have hset := hnode.settled hr hpending
  have hspec := step_spec h.ghost hset.inv hmsg hstep
  by_cases hwrite : p.requiresWrite = true
  · -- the new state is not durable yet
    refine ⟨g, Ghost.Le.refl g, ?_⟩
    dsimp only
    rw [if_pos hwrite, hwrite]
    refine h.quiet (Evolves.refl m g) ⟨hnode.durable, fun r₂ hr₂ => ?_⟩ le_rfl
    cases hr₂
    obtain ⟨id, out, hout⟩ := hspec.pending
    exact ⟨hspec.id.trans hid, Or.inr ⟨rfl, by rw [hout]; simp, r, ev, p, r', hspec.id.symm,
      hset.state, hset.inv, hmsg, hstep, rfl⟩⟩
  · have hwrite : p.requiresWrite = false := by simpa using hwrite
    have hstate := hspec.unchanged hwrite
    obtain ⟨g', hev, _, hnode', hout⟩ := hspec.refines
    rw [hid] at hev
    refine ⟨g', hev.le, ?_⟩
    dsimp only
    rw [if_neg (by rw [hwrite]; decide)]
    exact h.settle hev (hspec.id.trans hid) rfl ⟨hstate.trans hset.state, hnode', hout⟩ le_rfl

theorem ClusterInv.publish (hact : s.publish m = some s') :
    ∃ g', g.Le g' ∧ ClusterInv cfg g' s' := by
  unfold Cluster.publish at hact
  obtain ⟨r, hr, hact⟩ := Option.bind_eq_some_iff.mp hact
  split_ifs at hact with hcond
  cases hact
  have hnode := h.nodes m
  obtain ⟨hid, hset | hspec⟩ := hnode.machine r hr
  · refine ⟨g, Ghost.Le.refl g, h.settle (Evolves.refl m g) hid rfl ⟨rfl, hset.inv, hset.output⟩ ?_⟩
    change _ ≤ r.state.commitIndex
    rw [hset.state]
  · -- the step before this state acts in the protocol now
    obtain ⟨r₀, ev, p, r₁, hid₀, hst, hinv, hmsg, hstep, hr₁⟩ := hspec.step
    have hspec' := step_spec h.ghost hinv hmsg hstep
    obtain ⟨g', hev, _, hnode', hout⟩ := hspec'.refines
    have hstate : r.state = r₁.state := by rw [hr₁]
    rw [hid₀, hid] at hev
    refine ⟨g', hev.le, h.settle hev hid rfl ⟨rfl, ?_, ?_⟩ ?_⟩
    · rw [hr₁]
      exact hnode'.congr rfl le_rfl (fun _ hp => hp)
    · intro id out hp
      obtain ⟨h1, h2⟩ := hout id out (by rw [hr₁] at hp; exact hp)
      exact ⟨h1, by rw [hstate]; exact h2⟩
    · change _ ≤ r.state.commitIndex
      rw [← hst, hstate]; exact hspec'.commit

/-- Member `m` hands out records its durable state holds, with messages. -/
theorem ClusterInv.release {records : List (Committed C)}
    (msgs : List (Envelope C)) (hnode : NodeOk cfg g m node)
    (hdurable : node.durable cfg = (s.nodes m).durable cfg)
    (hrecords : ∀ record ∈ records, Holds (node.durable cfg) record)
    (hmsgs : ∀ env ∈ msgs, MsgInv g env) (hs : s'.nodes = Function.update s.nodes m node)
    (hnetwork : s'.network = s.network ++ msgs)
    (htrace : s'.trace = s.trace ++ records.map (.released m)) (hprobes : s'.probes = s.probes)
    (hacks : s'.acks = s.acks) (hrounds : s'.rounds = s.rounds) : ClusterInv cfg g s' := by
  refine h.update (Evolves.refl m g) msgs _ hnode (by rw [hdurable]) hmsgs ?_ ?_ ?_ hs hnetwork htrace
    hprobes hacks hrounds
  · intro obs hobs
    obtain ⟨record, hrec, rfl⟩ := List.mem_map.mp hobs
    exact hnode.durable.committedAt (hrecords record hrec)
  · intro x record hmem
    obtain ⟨record', hrec, heq⟩ := List.mem_map.mp hmem
    cases heq
    exact ⟨rfl, (hrecords record hrec).1⟩
  · intro index began hmem
    simp at hmem

theorem ClusterInv.persisted {id : PersistenceId}
    (hact : s.persisted m id = some s') : ClusterInv cfg g s' := by
  unfold Cluster.persisted at hact
  obtain ⟨r, hr, hact⟩ := Option.bind_eq_some_iff.mp hact
  split at hact
  swap
  · cases hact
  rename_i output r' hcovered hpersisted
  cases hact
  have hnode := h.nodes m
  obtain ⟨hid, hset | hspec⟩ := hnode.machine r hr
  swap
  · rw [hspec.uncovered] at hcovered; cases hcovered
  unfold Raft.persisted at hpersisted
  split_ifs at hpersisted
  split at hpersisted
  swap
  · cases hpersisted
  rename_i expected out hpending
  split_ifs at hpersisted
  cases hpersisted
  obtain ⟨hsent, hcommitted⟩ := hset.output _ _ hpending
  have hset' : Settled cfg g (s.nodes m) { r with pending := none, initialized := true } :=
    hset.congr rfl rfl rfl (Or.inl rfl)
  have hok : NodeOk cfg g m
      { s.nodes m with machine := some { r with pending := none, initialized := true } } := by
    refine ⟨hnode.durable, fun r₂ hr₂ => ?_⟩
    cases hr₂
    exact ⟨hid, Or.inl ⟨hset'.state, hset'.inv, hset'.output⟩⟩
  rw [hset.state] at hcommitted
  exact h.release _ hok rfl hcommitted hsent rfl rfl rfl rfl rfl rfl

theorem ClusterInv.committedAfter (hr : s.machine m = some r) {applied : ℕ}
    {records : List (Committed C)} (hok : r.committedAfter applied = .ok records) :
    ClusterInv cfg g (s.observe (records.map (.released m))) := by
  unfold Raft.committedAfter at hok
  simp only [bind_eq_ok] at hok
  obtain ⟨_, havail, _, -, _, -, hok⟩ := hok
  cases hok
  have hset := (h.nodes m).settled hr (available_pending havail)
  refine h.release [] (h.nodes m) rfl (fun record hrec => ?_)
    (fun _ hm => by cases hm) (update_eq_self m s.nodes).symm (append_nil _).symm
    rfl rfl rfl rfl
  rw [← hset.state]
  exact holds_of_mem_committedRange hrec

theorem ClusterInv.publicationFailed
    (hr : s.machine m = some r) : ClusterInv cfg g (s.setMachine m r.publicationFailed) := by
  obtain ⟨hid, hset | hspec⟩ := (h.nodes m).machine r hr
  · exact h.setSettled hid (hset.congr rfl rfl rfl (Or.inr rfl))
  · refine h.quiet (Evolves.refl m g) ⟨(h.nodes m).durable, fun r₂ hr₂ => ?_⟩ le_rfl
    cases hr₂
    obtain ⟨r₀, ev, p, r₁, hid₀, hst, hinv, hmsg, hstep, hr₁⟩ := hspec.step
    refine ⟨hid, Or.inr ⟨hspec.uncovered, hspec.pending, r₀, ev, p, r₁, hid₀, hst, hinv, hmsg,
      hstep, ?_⟩⟩
    rw [hr₁]; rfl

theorem ClusterInv.configure (hr : s.machine m = some r) {maximum : ℕ}
    (hok : r.configureAppendPipeline maximum = .ok r') :
    ClusterInv cfg g (s.setMachine m r') := by
  unfold Raft.configureAppendPipeline at hok
  simp only [bind_eq_ok] at hok
  obtain ⟨_, havail, _, -, _, -, hok⟩ := hok
  cases hok
  exact h.setSettled ((h.nodes m).machine r hr).1
    (((h.nodes m).settled hr (available_pending havail)).congr rfl rfl rfl
      (Or.inr rfl))

end FrankenGraph.Order

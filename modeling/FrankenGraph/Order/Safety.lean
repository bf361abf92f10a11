import FrankenGraph.Order.ClusterRuns

/-!
# Safety of the Raft kernel

The guarantees of `crates/fgdb-order` over every run of a cluster: any number of
members under one stable or joint configuration, any interleaving of steps and
publications, message loss, duplication and reordering, crashes and recoveries,
compaction and snapshot installation.

Results:
* `election_safety`: one leader a term.
* `state_machine_safety`: released records never disagree or change.
* `leader_completeness`: later leaders hold what earlier ones counted.
* `log_matching`: published logs agree below a common entry, and no message of the
  run trips the conflict checks.
* `match_evidence`: what a leader counts as matched is in the published log of the member.
* `read_barrier`: a completed read round covers every record released before it.
* `leader_append_only`: a leader only appends to what it has published in its term.
* `released_on_quorum`: a quorum has written every released record.
* `vote_kept`: terms never fall, and a term has one vote.
* `granted_vote_written`, `acknowledged_written`: what a reply promises has been written.
-/

namespace FrankenGraph.Order

open Protocol List Option

variable {C : Type} [DecidableEq C] {cfg : Configuration} {g : Ghost C} {s s' : Cluster C}

/-! ## A sample run -/

/-- Three voters. -/
def threeVoters : Configuration :=
  { domain := ⟨1#256⟩, identity := 2#256, voters := .ofList [1, 2, 3], learners := ∅,
    joint := none, voters_ne := by decide }

/-- An envelope under `threeVoters`. -/
def sampleEnvelope (sender recipient : MemberId) (message : Message ℕ) : Envelope ℕ :=
  { domain := ⟨1#256⟩, configuration := 2#256, sender, recipient, message }

/-- A step whose state is written and reported. -/
def driven (member incarnation generation : ℕ) (event : Event ℕ) : List (Action ℕ) :=
  [.step member event, .publish member, .persisted member { incarnation, generation }]

/-- Member 1 is elected in term 1 and commits its no-op with member 2. -/
def firstTerm : List (Action ℕ) :=
  [.start 1 .default, .start 2 .default, .start 3 .default] ++
    driven 1 0 1 .electionTimeout ++
    driven 2 1 1 (.receive (sampleEnvelope 1 2 (.requestVote 1 0 0))) ++
    driven 1 0 2 (.receive (sampleEnvelope 2 1 (.vote 1 true))) ++
    driven 2 1 2 (.receive (sampleEnvelope 1 2
      (.append 1 1 0 0 [{ term := 1, command := none }] 0))) ++
    driven 1 0 3 (.receive (sampleEnvelope 2 1 (.appended 1 1 true 0)))

/-- Member 1 reads, with the acknowledgement of member 2. -/
def sampleRead : List (Action ℕ) :=
  let probe : ReadIndexProbe :=
    { domain := ⟨1#256⟩, configuration := 2#256, sender := 1, recipient := 2, term := 1, round := 4 }
  let ack : ReadIndexAck :=
    { domain := ⟨1#256⟩, configuration := 2#256, sender := 2, recipient := 1, term := 1, round := 4 }
  [.beginReadIndex 1, .probes 1 0, .acknowledgeReadIndex 2 probe, .acknowledge 1 0 ack,
    .tryComplete 1 0]

/-- Member 2 takes over in term 2 with the vote of member 3. -/
def secondTerm : List (Action ℕ) :=
  driven 2 1 3 .electionTimeout ++
    driven 3 2 1 (.receive (sampleEnvelope 2 3 (.requestVote 2 1 1))) ++
    driven 2 1 4 (.receive (sampleEnvelope 3 2 (.vote 2 true)))

/-- The no-op of term 1 as a committed record. -/
def firstRecord : Committed ℕ := { index := 1, entry := { term := 1, command := none } }

/-- The state with which member 1 leads when it has counted its no-op. -/
def firstLeaderState : PersistentState ℕ :=
  { configuration := threeVoters, term := 1, votedFor := some 1, commitIndex := 1,
    snapshot := none, entries := [{ term := 1, command := none }] }

/-- The state with which member 2 becomes the leader of term 2. -/
def secondLeaderState : PersistentState ℕ :=
  { configuration := threeVoters, term := 2, votedFor := some 2, commitIndex := 0,
    snapshot := none, entries := [{ term := 1, command := none }, { term := 2, command := none }] }

/-- The cluster a schedule leads to. -/
def sampleAfter (s : Cluster ℕ) (actions : List (Action ℕ)) : Cluster ℕ :=
  (s.run threeVoters actions).getD s

theorem sampleAfter_runs (s : Cluster ℕ) (actions : List (Action ℕ)) :
    Cluster.Runs threeVoters s (sampleAfter s actions) := by
  unfold sampleAfter
  cases h : s.run threeVoters actions with
  | none => exact .refl
  | some s' => exact Cluster.run_runs h

/-- The cluster after the first term. -/
def sampleCluster : Cluster ℕ := sampleAfter .init firstTerm

/-! ## Leaders -/

variable {n : MemberId} {r : Raft C}

/-- A kernel with no pending publication that leads has led in the protocol. -/
theorem ClusterInv.leader (h : ClusterInv cfg g s) (hr : s.machine n = some r)
    (hpending : r.pending = none) (hlead : r.role = .leader) :
    g.view.leader r.state.term = some n := by
  rw [← ((h.nodes n).machine r hr).1]
  exact (((h.nodes n).settled hr hpending).inv.leading hlead).leader

/-- **Election safety.** Two members that hold the leader role of one term, at any
two moments of a run, are the same member. -/
theorem election_safety (hs : Cluster.Reachable cfg s) (hrun : Cluster.Runs cfg s s')
    {n n' : MemberId} {r r' : Raft C} (hr : s.machine n = some r) (hr' : s'.machine n' = some r')
    (hpending : r.pending = none) (hpending' : r'.pending = none) (hlead : r.role = .leader)
    (hlead' : r'.role = .leader) (hterm : r.state.term = r'.state.term) : n = n' := by
  obtain ⟨g, hg⟩ := ClusterInv.reachable hs
  obtain ⟨g', hle, hg'⟩ := hg.runs hrun
  have hl := hle.view.leader (hg.leader hr hpending hlead)
  rw [hterm, hg'.leader hr' hpending' hlead'] at hl
  exact (some.inj hl).symm

/-- Member 2 has taken over, and of term 1 there is still no leader but member 1. -/
theorem election_safety_sample : {n | ∃ r, (sampleAfter sampleCluster secondTerm).machine n = some r ∧
    r.pending = none ∧ r.role = .leader ∧ r.state.term = 1} = {1} := by
  ext n
  constructor
  · rintro ⟨r, hr, hpending, hlead, hterm⟩
    exact (election_safety (sampleAfter_runs .init firstTerm) (sampleAfter_runs _ secondTerm)
      (r := (sampleCluster.machine 1).get (by decide)) (some_get _).symm hr (by decide) hpending
      (by decide) hlead (by rw [hterm]; decide)).symm
  · rintro rfl
    exact ⟨_, (some_get (by decide)).symm, by decide, by decide, by decide⟩

/-! ## Committed records -/

omit [DecidableEq C] in
/-- Two entries counted at one index are equal. -/
theorem CommittedAt.unique (hinv : GhostInv cfg g) {i : ℕ} {e e' : Entry C}
    (h : CommittedAt g i e) (h' : CommittedAt g i e') : e = e' := by
  obtain ⟨hi, t, ht, he⟩ := h
  obtain ⟨_, t', ht', he'⟩ := h'
  have hcommitted : ∀ {u f}, i ≤ g.view.commit u → (g.view.leaderLog u)[i - 1]? = some f →
      Protocol.Committed g.view u (g.view.leaderLog u) i := by
    intro u f hu hf
    have := (List.getElem?_eq_some_iff.mp hf).1
    exact Or.inr ⟨u, le_rfl, hu, by omega, rfl⟩
  have htake := hinv.committed_agree (hcommitted ht he) (hcommitted ht' he')
  rw [Nat.min_self] at htake
  have hag : Agree (g.view.leaderLog t) (g.view.leaderLog t') (i - 1) := by
    unfold Agree; rwa [Nat.sub_add_cancel hi]
  have := hag.getElem? le_rfl
  rw [he, he'] at this
  exact Option.some.inj this

/-- A state that has committed `record` and not replaced it: it still holds it, or
its snapshot covers it. -/
def Retains (st : PersistentState C) (record : Committed C) : Prop :=
  record.index ≤ st.commitIndex ∧
    (st.baseIndex < record.index → st.entryAt record.index = some record.entry)

omit [DecidableEq C] in
theorem Durable.retains {m : MemberId} {st : PersistentState C} (h : Durable cfg g m st)
    (hinv : GhostInv cfg g) {record : Committed C}
    (hc : CommittedAt g record.index record.entry) (hle : record.index ≤ st.commitIndex) :
    Retains st record := by
  refine ⟨hle, fun hbase => ?_⟩
  have hlen := h.commit.le_length
  obtain ⟨i, hi⟩ : ∃ i, record.index = i + 1 := ⟨record.index - 1, by omega⟩
  have hentry : st.entryAt record.index = some (g.view.log m)[i] := by
    rw [hi, h.log.entryAt (by omega), getElem?_eq_getElem (by omega)]
  have hmine : CommittedAt g record.index (g.view.log m)[i] :=
    h.committedAt (show Holds st ⟨record.index, (g.view.log m)[i]⟩ from ⟨hle, hentry⟩)
  rw [hentry, CommittedAt.unique hinv hc hmine]

/-- **State-machine safety.** Records released for one index are equal, whoever
releases them and when, and a member that has released a record keeps it on its
medium and in its running kernel. -/
theorem state_machine_safety (hs : Cluster.Reachable cfg s) :
    (∀ n n' record record', .released n record ∈ s.trace → .released n' record' ∈ s.trace →
      record.index = record'.index → record.entry = record'.entry) ∧
    ∀ n record, .released n record ∈ s.trace →
      (∀ st, (s.nodes n).published = some st → Retains st record) ∧
      ∀ r, s.machine n = some r → Retains r.state record := by
  obtain ⟨g, hg⟩ := ClusterInv.reachable hs
  refine ⟨fun n n' record record' h h' hindex => ?_, fun n record h => ⟨fun st hst => ?_,
    fun r hr => ?_⟩⟩
  · have hc := hg.trace _ h
    have hc' := hg.trace _ h'
    change CommittedAt g record.index record.entry at hc
    rw [hindex] at hc
    exact CommittedAt.unique hg.ghost hc hc'
  · have hd := (hg.nodes n).durable
    have hkept := hg.kept n record h
    rw [show (s.nodes n).durable cfg = st by simp [Node.durable, hst]] at hd hkept
    exact hd.retains hg.ghost (hg.trace _ h) hkept
  · have hkept := hg.kept n record h
    obtain ⟨hid, hset | hspec⟩ := (hg.nodes n).machine r hr
    · rw [← hset.state] at hkept
      exact hset.inv.durable.retains hg.ghost (hg.trace _ h) hkept
    · -- the pending step only adds to what is committed
      obtain ⟨r₀, ev, p, r₁, hid₀, hst, hinv, hmsg, hstep, hr₁⟩ := hspec.step
      have hspec' := step_spec hg.ghost hinv hmsg hstep
      obtain ⟨g', hev, hinv', hnode', _⟩ := hspec'.refines
      rw [← hst] at hkept
      rw [hr₁]
      exact hnode'.durable.retains hinv' (ObsInv.mono hev.le (hg.trace _ h))
        (hkept.trans hspec'.commit)

theorem state_machine_safety_sample : .released 1 firstRecord ∈ sampleCluster.trace ∧
      Retains ((sampleCluster.machine 1).get (by decide)).state firstRecord := by
  have hmem : .released 1 firstRecord ∈ sampleCluster.trace := by decide
  exact ⟨hmem, ((state_machine_safety (sampleAfter_runs .init firstTerm)).2 1 firstRecord hmem).2 _
    (some_get _).symm⟩

/-! ## Leader completeness -/

/-- **Leader completeness.** What a leader has counted when a transition of it is
published, every leader of a later term holds in each state it publishes as
leader, the first included, or has covered by its snapshot. -/
theorem leader_completeness (hs : Cluster.Reachable cfg s) {n n' : MemberId}
    {st st' : PersistentState C} (hcounted : .published n .leader st ∈ s.trace)
    (hleads : .published n' .leader st' ∈ s.trace) (hterm : st.term < st'.term) {i : ℕ}
    {e : Entry C} (hi : i ≤ st.commitIndex) (he : st.entryAt i = some e) :
    st'.entryAt i = some e ∨ i ≤ st'.baseIndex := by
  obtain ⟨g, hg⟩ := ClusterInv.reachable hs
  obtain ⟨L, hrep, hcommit, _⟩ := (hg.trace _ hcounted).log
  obtain ⟨L', hrep', _, hlead'⟩ := (hg.trace _ hleads).log
  obtain ⟨hl', S, hstood, hpre⟩ := hlead' rfl
  obtain ⟨hbase, he⟩ := hrep.entryAt_some he
  obtain ⟨k, rfl⟩ : ∃ k, i = k + 1 := ⟨i - 1, by omega⟩
  rw [Nat.add_sub_cancel] at he
  rcases hcommit with h0 | ⟨t, ht, hn, _, htake⟩
  · omega
  -- the counted entry was chosen, so the log the later leader stood with holds it
  have hchosen := hg.ghost.commit_chosen (t := t) (by omega)
  have hag := hg.ghost.stood_complete (by omega) hstood (hg.ghost.leader_votes hl')
    hchosen.choosable
  have hL : Agree L (g.view.leaderLog t) (st.commitIndex - 1) := by
    unfold Agree; rwa [Nat.sub_add_cancel (by omega)]
  have hS : S[k]? = some e := by
    rw [hag.getElem? (by omega), ← hL.getElem? (by omega), he]
  have hL' : L'[k]? = some e := by
    rw [← (Agree.extend hpre (List.getElem?_eq_some_iff.mp hS).1).getElem? le_rfl, hS]
  by_cases hcovered : k + 1 ≤ st'.baseIndex
  · exact Or.inr hcovered
  · left
    rw [hrep'.entryAt (by omega), hL']

theorem leader_completeness_sample :
    secondLeaderState.entryAt 1 = some { term := 1, command := none } ∨
      1 ≤ secondLeaderState.baseIndex :=
  leader_completeness
    ((sampleAfter_runs .init firstTerm).trans (sampleAfter_runs sampleCluster secondTerm))
    (show Observation.published 1 .leader firstLeaderState ∈ _ by decide)
    (show Observation.published 2 .leader secondLeaderState ∈ _ by decide) (by decide) (by decide) (by decide)

/-! ## Log matching -/

/-- The comparison loop accepts entries that agree with the local ones where it
matters. -/
theorem appendConflict_ok (es : List (Entry C)) :
    ∀ index, (∀ k e mine, es[k]? = some e → r.state.entryAt (index + k) = some mine →
      (mine.term = e.term → mine = e) ∧
      (mine.term ≠ e.term → r.state.commitIndex < index + k)) →
    r.appendConflict index es = .ok () := by
  induction es with
  | nil => intro index _; rfl
  | cons e rest ih =>
    intro index hagree
    have hrest : r.appendConflict (index + 1) rest = .ok () :=
      ih (index + 1) fun k e' mine he' hm => by
        have := hagree (k + 1) e' mine (by simpa using he') (by rw [← hm]; congr 1; omega)
        rwa [show index + (k + 1) = index + 1 + k by omega] at this
    unfold Raft.appendConflict
    split
    · exact hrest
    · rename_i mine hmine
      obtain ⟨hsame, hlater⟩ := hagree 0 e mine rfl hmine
      split_ifs with hterm hcommand
      · rw [refuse_eq_ok, decide_eq_false_iff_not]
        have := hlater hterm
        omega
      · rw [hsame (not_not.mp hterm)] at hcommand
        exact absurd rfl hcommand
      · exact hrest

/-- An append of the run never conflicts with the entries of a kernel that has not
passed its term. -/
theorem appendConflict_of_inv (hinv : GhostInv cfg g) (hnode : NodeInv cfg g r)
    {sender recipient : MemberId} {term request prev prevTerm commit : ℕ} {es : List (Entry C)}
    (hmsg : AppendInv g sender recipient term request prev prevTerm es commit)
    (hterm : r.state.term ≤ term) : r.appendConflict (prev + 1) es = .ok () := by
  have hd := hnode.durable
  refine appendConflict_ok es (prev + 1) fun k e mine he hm => ?_
  obtain ⟨_, hm⟩ := hd.log.entryAt_some hm
  rw [show prev + 1 + k - 1 = prev + k by omega] at hm
  rw [hmsg.range, getElem?_drop, getElem?_take] at he
  split_ifs at he with hk
  constructor
  · intro ht
    have hag := (hinv.log_rooted r.id).agree (hinv.leaderLog_rooted term) hm he ht
    have := hag.getElem? le_rfl
    rw [hm, he] at this
    exact some.inj this
  · intro hne
    by_contra hle
    -- committed entries are the leader's
    have htake := hinv.committed_leader hd.commit hterm hmsg.leader
    have := congrArg (·[prev + k]?) htake
    simp only [getElem?_take, show prev + k < r.state.commitIndex by omega, if_true] at this
    rw [hm, he] at this
    exact hne (congrArg Entry.term (some.inj this)).symm

/-- A check that refuses neither as an identity conflict nor as a committed
conflict. -/
def Unconflicted (x : Except Error Unit) : Prop :=
  x ≠ .error .entryIdentityConflict ∧ x ≠ .error .committedConflict

section

omit [DecidableEq C]

theorem Unconflicted.bind {x : Except Error Unit} {f : Unit → Except Error Unit}
    (hx : Unconflicted x) (hf : Unconflicted (f ())) : Unconflicted (x >>= f) := by
  constructor
  · intro h
    rcases bind_eq_error.mp h with h | ⟨_, _, h⟩
    · exact hx.1 h
    · exact hf.1 h
  · intro h
    rcases bind_eq_error.mp h with h | ⟨_, _, h⟩
    · exact hx.2 h
    · exact hf.2 h

theorem Unconflicted.refuse {condition : Bool} {error : Error}
    (h : error ≠ .entryIdentityConflict ∧ error ≠ .committedConflict) :
    Unconflicted (FrankenGraph.refuse condition error) :=
  ⟨fun hr => h.1 (refuse_eq_error.mp hr).2, fun hr => h.2 (refuse_eq_error.mp hr).2⟩

theorem Unconflicted.ok : Unconflicted (.ok ()) := ⟨by simp, by simp⟩

theorem validateEnvelope_unconflicted (r : Raft C) (env : Envelope C) :
    Unconflicted (r.validateEnvelope env) := by
  have hliveness : Unconflicted (Raft.validateLiveness env.message) := by
    unfold Raft.validateLiveness
    split <;> first | exact .refuse (by decide) | exact .ok
  have hhandoff : Unconflicted (Raft.validateHandoff env.message) := by
    unfold Raft.validateHandoff
    split <;> first | exact .refuse (by decide) | exact .ok
  exact .bind (.refuse (by decide)) (.bind (.refuse (by decide)) (.bind (.refuse (by decide))
    (.bind (.refuse (by decide)) (.bind (.refuse (by decide)) (.bind (.refuse (by decide))
      (.bind hliveness hhandoff))))))

end

/-- No envelope of the run trips the conflict checks of a kernel that takes events. -/
theorem ClusterInv.unconflicted (h : ClusterInv cfg g s) (hr : s.machine n = some r)
    (havail : r.available = .ok ()) {env : Envelope C}
    (henv : env ∈ s.network) : Unconflicted (r.validateEvent (.receive env)) := by
  have hset := (h.nodes n).settled hr (available_pending havail)
  have hmsg := h.network env henv
  refine .bind .ok (.bind (validateEnvelope_unconflicted r env) ?_)
  unfold MsgInv at hmsg
  split
  · rename_i heq
    rw [heq] at hmsg
    refine .bind (.refuse (by decide)) (.bind (.refuse (by decide)) (.bind (.refuse (by decide))
      (.bind (.refuse (by decide)) ?_)))
    split_ifs with hcond
    · rw [appendConflict_of_inv h.ghost hset.inv hmsg hcond.1]
      exact .bind (.refuse (by decide)) .ok
    · exact .ok
  · exact .refuse (by decide)
  · refine .bind (.bind (.refuse (by decide)) (.refuse (by decide)))
      (.bind (.refuse (by decide)) ?_)
    split_ifs
    · exact .bind (.refuse (by decide)) (.refuse (by decide))
    · exact .ok
  · exact .ok

/-- **Log matching.** Published logs that have one term at index `i`, cuts
included, hold the same entries and terms at every index up to `i` that both
retain; and no kernel of the run refuses an envelope of the run for an identity
or a committed conflict. -/
theorem log_matching (hs : Cluster.Reachable cfg s) :
    (∀ n n' st st', (s.nodes n).published = some st → (s.nodes n').published = some st' →
      ∀ i t, st.termAt i = some t → st'.termAt i = some t → ∀ j ≤ i,
        (∀ e e', st.entryAt j = some e → st'.entryAt j = some e' → e = e') ∧
        ∀ u u', st.termAt j = some u → st'.termAt j = some u' → u = u') ∧
    ∀ n r, s.machine n = some r → r.available = .ok () → ∀ env ∈ s.network,
      r.validateEvent (.receive env) ≠ .error .entryIdentityConflict ∧
        r.validateEvent (.receive env) ≠ .error .committedConflict := by
  obtain ⟨g, hg⟩ := ClusterInv.reachable hs
  refine ⟨fun n n' st st' hst hst' i t ht ht' j hj => ?_,
    fun n r hr havail env henv => hg.unconflicted hr havail henv⟩
  have hd := (hg.nodes n).durable.log
  have hd' := (hg.nodes n').durable.log
  rw [show (s.nodes n).durable cfg = st by simp [Node.durable, hst]] at hd
  rw [show (s.nodes n').durable cfg = st' by simp [Node.durable, hst']] at hd'
  have htake := logTerm_agree (hg.ghost.log_rooted n) (hg.ghost.log_rooted n')
    (hd.termAt_some ht).2 (hd'.termAt_some ht').2
  refine ⟨fun e e' he he' => ?_, fun u u' hu hu' => ?_⟩
  · have hlow := hd.entryAt_some he
    have hlow' := hd'.entryAt_some he'
    have := congrArg (·[j - 1]?) htake
    simp only [getElem?_take, show j - 1 < i by omega, if_true] at this
    rw [hlow.2, hlow'.2] at this
    exact some.inj this
  · have := logTerm_take_eq htake hj
    rw [(hd.termAt_some hu).2, (hd'.termAt_some hu').2] at this
    exact some.inj this

theorem log_matching_sample : firstLeaderState.termAt 1 = some 1 ∧
      ∀ n r, sampleCluster.machine n = some r → r.available = .ok () →
        ∀ env ∈ sampleCluster.network,
          r.validateEvent (.receive env) ≠ .error .entryIdentityConflict ∧
            r.validateEvent (.receive env) ≠ .error .committedConflict :=
  ⟨by decide, (log_matching (sampleAfter_runs .init firstTerm)).2⟩

/-! ## Match evidence -/

/-- Both states reach index `n` and hold the same terms and entries up to it, wherever both retain
them; a snapshot cut holds its term. -/
structure Matches (st st' : PersistentState C) (n : ℕ) : Prop where
  reaches : n ≤ st.lastIndex ∧ n ≤ st'.lastIndex
  terms : ∀ i ≤ n, st.baseIndex ≤ i → st'.baseIndex ≤ i → st.termAt i = st'.termAt i
  entries : ∀ i ≤ n, st.baseIndex < i → st'.baseIndex < i → st.entryAt i = st'.entryAt i

omit [DecidableEq C] in
theorem LogRep.matches {L K : List (Entry C)} {st st' : PersistentState C} (h : LogRep L st)
    (h' : LogRep K st') {n : ℕ} (hL : n ≤ L.length) (hK : n ≤ K.length)
    (htake : L.take n = K.take n) : Matches st st' n := by
  refine ⟨⟨h.lastIndex ▸ hL, h'.lastIndex ▸ hK⟩, fun i hi hbase hbase' => ?_,
    fun i hi hbase hbase' => ?_⟩
  · rw [h.termAt hbase, h'.termAt hbase']
    exact logTerm_take_eq htake hi
  · obtain ⟨j, rfl⟩ : ∃ j, i = j + 1 := ⟨i - 1, by omega⟩
    rw [h.entryAt (by omega), h'.entryAt (by omega)]
    have := congrArg (·[j]?) htake
    simpa only [getElem?_take, show j < n by omega, if_true] using this

/-- A running kernel, pending publication or not, represents its member in a view that only this
member has moved on. -/
theorem ClusterInv.represents (h : ClusterInv cfg g s) (hr : s.machine n = some r) :
    ∃ g', Evolves cfg n g g' ∧ GhostInv cfg g' ∧ NodeInv cfg g' r := by
  obtain ⟨hid, hset | hspec⟩ := (h.nodes n).machine r hr
  · exact ⟨g, Evolves.refl n g, h.ghost, hset.inv⟩
  · obtain ⟨r₀, ev, p, r₁, hid₀, -, hinv, hmsg, hstep, hr₁⟩ := hspec.step
    obtain ⟨g', hev, hghost, hnode, -⟩ := (step_spec h.ghost hinv hmsg hstep).refines
    rw [hid₀, hid] at hev
    refine ⟨g', hev, hghost, ?_⟩
    rw [hr₁]
    exact hnode.congr rfl le_rfl (fun _ hp => hp)

/-- **Match evidence.** What a leader counts as matched by a member of its term is in the published
log of the member: both logs agree at every index up to it. -/
theorem match_evidence (hs : Cluster.Reachable cfg s) {n peer : MemberId} {r : Raft C}
    {st : PersistentState C} {progress : Progress} (hr : s.machine n = some r)
    (hlead : r.role = .leader) (hprogress : r.progress[peer]? = some progress)
    (hst : (s.nodes peer).published = some st) (hterm : st.term = r.state.term) :
    Matches st r.state progress.matched := by
  obtain ⟨g, hg⟩ := ClusterInv.reachable hs
  obtain ⟨g', hev, hinv, hnode⟩ := hg.represents hr
  have hleader := hnode.leading hlead
  have hid : r.id = n := ((hg.nodes n).machine r hr).1
  have hne : peer ≠ n := by
    rintro rfl
    have hnone := hleader.others
    rw [hid, hprogress] at hnone
    cases hnone
  -- the member has not moved since the view of the published states
  have hdurable : Durable cfg g' peer st := by
    have := (hg.nodes peer).durable
    rw [show (s.nodes peer).durable cfg = st by simp [Node.durable, hst]] at this
    exact this.evolve hev hne
  have hmatched := (hleader.progress peer progress hprogress).matched
  have hheld := hinv.held peer
  rw [hdurable.term, hterm] at hheld
  have hreach := hinv.acked_le peer r.state.term
  have hlog : g'.view.log r.id = g'.view.leaderLog r.state.term :=
    hinv.leader_log hleader.leader hnode.durable.term
  have hlength : g'.view.acked peer r.state.term ≤ (g'.view.log peer).length := by
    have := congrArg length hheld
    rw [length_take, length_take, Nat.min_eq_left hreach] at this
    omega
  refine hdurable.log.matches hnode.durable.log (hmatched.trans hlength) ?_ ?_
  · rw [hlog]
    exact hmatched.trans hreach
  · rw [Protocol.take_eq_of_le hheld hmatched, hlog]

/-- After the first term the leader, member 1, has matched index 1 at member 2. -/
theorem match_evidence_sample : ∃ (r : Raft ℕ) (st : PersistentState ℕ) (progress : Progress),
    sampleCluster.machine 1 = some r ∧ (sampleCluster.nodes 2).published = some st ∧
      r.progress[(2 : MemberId)]? = some progress ∧ Matches st r.state progress.matched :=
  have hr : sampleCluster.machine 1 = some ((sampleCluster.machine 1).get (by decide)) :=
    (some_get _).symm
  have hst : (sampleCluster.nodes 2).published =
      some ((sampleCluster.nodes 2).published.get (by decide)) := (some_get _).symm
  have hprogress : ((sampleCluster.machine 1).get (by decide)).progress[(2 : MemberId)]? =
      some ((((sampleCluster.machine 1).get (by decide)).progress[(2 : MemberId)]?).get
        (by decide)) := (some_get _).symm
  ⟨_, _, _, hr, hst, hprogress, match_evidence (sampleAfter_runs .init firstTerm) hr (by decide)
    hprogress hst (by decide)⟩

/-! ## Reads -/

/-- **Read barrier.** A read round that yielded `index` lies at or above every
record that any member had released when it began. -/
theorem read_barrier (hs : Cluster.Reachable cfg s) {index began : ℕ}
    (hread : .readCompleted index began ∈ s.trace) {n : MemberId} {record : Committed C}
    (hreleased : .released n record ∈ s.trace.take began) : record.index ≤ index := by
  obtain ⟨g, hg⟩ := ClusterInv.reachable hs
  exact (hg.reads index began hread).2 n record hreleased

theorem read_barrier_sample :
    .readCompleted 1 6 ∈ (sampleAfter sampleCluster sampleRead).trace ∧
      .released 1 firstRecord ∈ (sampleAfter sampleCluster sampleRead).trace.take 6 ∧
      firstRecord.index ≤ 1 :=
  have hread : .readCompleted 1 6 ∈ (sampleAfter sampleCluster sampleRead).trace := by decide
  have hreleased : .released 1 firstRecord ∈ (sampleAfter sampleCluster sampleRead).trace.take 6 := by
    decide
  ⟨hread, hreleased, read_barrier ((sampleAfter_runs .init firstTerm).trans
    (sampleAfter_runs sampleCluster sampleRead)) hread hreleased⟩

/-! ## Growth and durability -/

variable {n : MemberId} {r : Raft C}

/-- **Leader append-only.** While a member leads a term, what its kernel has published stays in its
log: later states of the term only append to it. -/
theorem leader_append_only (hs : Cluster.Reachable cfg s) (hrun : Cluster.Runs cfg s s')
    {r' : Raft C} (hr : s.machine n = some r) (hr' : s'.machine n = some r')
    (hpending : r.pending = none) (hlead : r.role = .leader) (hlead' : r'.role = .leader)
    (hterm : r.state.term = r'.state.term) : Matches r.state r'.state r.state.lastIndex := by
  obtain ⟨g, hg⟩ := ClusterInv.reachable hs
  obtain ⟨g', hle, hg'⟩ := hg.runs hrun
  obtain ⟨g'', hev, hinv, hnode⟩ := hg'.represents hr'
  have hset := ((hg.nodes n).settled hr hpending).inv
  have hlog := hg.ghost.leader_log (hset.leading hlead).leader hset.durable.term
  have hgrown := (hle.view.leaderLog r.state.term).trans (hev.le.view.leaderLog _)
  rw [← hlog, hterm, ← hinv.leader_log (hnode.leading hlead').leader hnode.durable.term] at hgrown
  rw [hset.durable.log.lastIndex]
  refine hset.durable.log.matches hnode.durable.log le_rfl hgrown.length_le ?_
  rw [take_length, ← prefix_iff_eq_take.mp hgrown]

/-- Member 1 appends a command in its term. -/
theorem leader_append_only_sample : ∃ r r' : Raft ℕ, sampleCluster.machine 1 = some r ∧
    (sampleAfter sampleCluster (driven 1 0 4 (.propose 7))).machine 1 = some r' ∧
    r.role = .leader ∧ r'.role = .leader ∧ r.state.lastIndex = 1 ∧ r'.state.lastIndex = 2 ∧
    Matches r.state r'.state r.state.lastIndex :=
  ⟨_, _, (some_get (by decide)).symm, (some_get (by decide)).symm, by decide, by decide, by decide,
    by decide, leader_append_only (sampleAfter_runs .init firstTerm) (sampleAfter_runs _ _)
      (some_get _).symm (some_get _).symm (by decide) (by decide) (by decide) (by decide)⟩

/-- A record that any member has released is in the written log of a quorum, or below its snapshot
cut. -/
theorem released_on_quorum (hs : Cluster.Reachable cfg s) {record : Committed C}
    (h : .released n record ∈ s.trace) : cfg.IsQuorum {m |
      record.index ≤ ((s.nodes m).durable cfg).lastIndex ∧
      (((s.nodes m).durable cfg).baseIndex < record.index →
        ((s.nodes m).durable cfg).entryAt record.index = some record.entry)} := by
  obtain ⟨g, hg⟩ := ClusterInv.reachable hs
  obtain ⟨hi, t, ht, he⟩ : CommittedAt g record.index record.entry := hg.trace _ h
  have hchosen := hg.ghost.commit_chosen (hi.trans_le ht)
  refine hchosen.2.mono fun m hm => ?_
  have hlog := (hg.nodes m).durable.log
  have hheld := (hg.ghost.log_acked hm hchosen.choosable).getElem? (Nat.sub_le_sub_right ht 1)
  rw [he] at hheld
  have hlt := (List.getElem?_eq_some_iff.mp hheld).1
  refine ⟨by rw [hlog.lastIndex]; omega, fun hbase => ?_⟩
  rw [← hheld, ← hlog.entryAt (by omega), Nat.sub_add_cancel hi]

theorem released_on_quorum_sample : ∃ m, 1 ≤ ((sampleCluster.nodes m).durable threeVoters).lastIndex :=
  have h := released_on_quorum (sampleAfter_runs .init firstTerm)
    (show .released 1 firstRecord ∈ sampleCluster.trace by decide)
  have ⟨m, hm, _⟩ := h.inter h
  ⟨m, hm.1⟩

/-- **One vote a term.** Over any run, crashes included, the term a member has written never falls,
and within a term its vote never changes. -/
theorem vote_kept (hs : Cluster.Reachable cfg s) (hrun : Cluster.Runs cfg s s') :
    ((s.nodes n).durable cfg).term ≤ ((s'.nodes n).durable cfg).term ∧
    (((s.nodes n).durable cfg).term = ((s'.nodes n).durable cfg).term → ∀ candidate,
      ((s.nodes n).durable cfg).votedFor = some candidate →
        ((s'.nodes n).durable cfg).votedFor = some candidate) := by
  obtain ⟨g, hg⟩ := ClusterInv.reachable hs
  obtain ⟨g', hle, hg'⟩ := hg.runs hrun
  have hd := (hg.nodes n).durable
  have hd' := (hg'.nodes n).durable
  refine ⟨hd.term ▸ hd'.term ▸ hle.view.cur n, fun hterm candidate hvote => ?_⟩
  rw [← hd'.vote, ← hterm]
  exact hle.view.voted (hd.vote.trans hvote)

theorem vote_kept_sample : ((sampleCluster.nodes 2).durable threeVoters).term ≤
    (((sampleAfter sampleCluster secondTerm).nodes 2).durable threeVoters).term :=
  (vote_kept (sampleAfter_runs .init firstTerm) (sampleAfter_runs _ secondTerm)).1

/-- A granted vote has been written: the sender's medium has left the term or holds the vote. -/
theorem granted_vote_written (hs : Cluster.Reachable cfg s) {env : Envelope C}
    (henv : env ∈ s.network) {t : ℕ} (hvote : env.message = .vote t true) :
    t < ((s.nodes env.sender).durable cfg).term ∨ ((s.nodes env.sender).durable cfg).term = t ∧
      ((s.nodes env.sender).durable cfg).votedFor = some env.recipient := by
  obtain ⟨g, hg⟩ := ClusterInv.reachable hs
  have hmsg := hg.network env henv
  rw [MsgInv, hvote] at hmsg
  have hd := (hg.nodes env.sender).durable
  have hle := hg.ghost.voted_le (hmsg rfl)
  rw [hd.term] at hle
  refine hle.lt_or_eq.imp_right fun hterm => ⟨hterm.symm, ?_⟩
  rw [← hd.vote, ← hterm, hmsg rfl]

theorem granted_vote_written_sample : 1 ≤ ((sampleCluster.nodes 2).durable threeVoters).term :=
  (granted_vote_written (sampleAfter_runs .init firstTerm)
    (show sampleEnvelope 2 1 (.vote 1 true) ∈ sampleCluster.network by decide) rfl).elim
    le_of_lt fun h => h.1.ge

/-- An acknowledged append has been written: while the follower has not left the term, its medium
holds the entries of the request, except below its snapshot cut. -/
theorem acknowledged_written (hs : Cluster.Reachable cfg s) {env ack : Envelope C}
    (henv : env ∈ s.network) (hack : ack ∈ s.network)
    {t request prev prevTerm commit hint : ℕ} {entries : List (Entry C)}
    (happend : env.message = .append t request prev prevTerm entries commit)
    (hok : ack.message = .appended t request true hint) :
    ack.sender = env.recipient ∧ (((s.nodes ack.sender).durable cfg).term = t →
      ∀ k, ((s.nodes ack.sender).durable cfg).baseIndex ≤ prev + k → k < entries.length →
        ((s.nodes ack.sender).durable cfg).entryAt (prev + k + 1) = entries[k]?) := by
  obtain ⟨g, hg⟩ := ClusterInv.reachable hs
  have happ := hg.network env henv
  have hanswer := hg.network ack hack
  rw [MsgInv, happend] at happ
  rw [MsgInv, hok] at hanswer
  obtain ⟨last, hissued, hlast⟩ := hanswer rfl
  obtain ⟨hpeer, rfl⟩ := Purpose.append.inj (some.inj (happ.issued.symm.trans hissued))
  refine ⟨hpeer.symm, fun hterm k hbase hk => ?_⟩
  have hd := (hg.nodes ack.sender).durable
  have hheld := hg.ghost.held ack.sender
  rw [hd.term, hterm] at hheld
  have hagree := congrArg (·[prev + k]?) (take_eq_of_le hheld hlast)
  rw [hd.log.entryAt hbase, happ.range]
  simpa [getElem?_take, getElem?_drop, hk] using hagree

theorem acknowledged_written_sample :
    ((sampleCluster.nodes 2).durable threeVoters).entryAt 1 = some firstRecord.entry :=
  (acknowledged_written (sampleAfter_runs .init firstTerm)
    (show sampleEnvelope 1 2 (.append 1 1 0 0 [firstRecord.entry] 0) ∈ sampleCluster.network by decide)
    (show sampleEnvelope 2 1 (.appended 1 1 true 0) ∈ sampleCluster.network by decide) rfl rfl).2
    (by decide) 0 (by decide) (by decide)

end FrankenGraph.Order

import FrankenGraph.Library.ProtocolSteps
import FrankenGraph.Order.Kernel

/-!
# The kernel against the replicated-log protocol

The relation between one machine of the kernel and a view of the abstract
protocol of `FrankenGraph.Library.Protocol`. The view holds every member's
uncompacted log: a `PersistentState` represents one by its snapshot cut and the
retained suffix (`LogRep`). Beside the view a `Ghost` remembers what each request
identity of each leader stood for.

* `Durable` relates a persistent state to the view, `NodeInv` a whole machine.
* `MsgInv` says what each released message proves about the view.
* `Evolves` is a run of protocol actions of one member; `Good` is the state of a
  step under way. All of them survive the actions of other members.
-/

namespace FrankenGraph.Order

open Protocol

variable {C : Type}

/-! ## Uncompacted logs -/

/-- The term at a one-based index of an uncompacted log; index zero has term
zero. -/
def logTerm (L : List (Entry C)) : ℕ → Option ℕ
  | 0 => some 0
  | i + 1 => L[i]?.map Entry.term

variable {L : List (Entry C)} {i t : ℕ}

theorem logTerm_le (h : logTerm L i = some t) : i ≤ L.length := by
  cases i with
  | zero => exact Nat.zero_le _
  | succ i =>
    simp only [logTerm, Option.map_eq_some_iff] at h
    obtain ⟨e, he, _⟩ := h
    exact (List.getElem?_eq_some_iff.mp he).1

variable {K : List (Entry C)}

theorem logTerm_extend (hpre : L <+: K) (hi : i ≤ L.length) : logTerm K i = logTerm L i := by
  cases i with
  | zero => rfl
  | succ i => simp only [logTerm]; rw [(Agree.extend hpre hi).getElem? le_rfl]

theorem logTerm_take_eq {n : ℕ} (h : L.take n = K.take n) (hi : i ≤ n) :
    logTerm L i = logTerm K i := by
  cases i with
  | zero => rfl
  | succ i =>
    have := congrArg (·[i]?) h
    simp only [List.getElem?_take, show i < n by omega, if_true] at this
    simp only [logTerm, this]

/-- The state keeps the suffix of `L` above its snapshot cut. -/
structure LogRep (L : List (Entry C)) (st : PersistentState C) : Prop where
  base : logTerm L st.baseIndex = some st.baseTerm
  entries : st.entries = L.drop st.baseIndex

namespace LogRep

variable {L : List (Entry C)} {st : PersistentState C}

variable (h : LogRep L st)
include h

theorem base_le : st.baseIndex ≤ L.length := logTerm_le h.base

theorem lastIndex : st.lastIndex = L.length := by
  have := h.base_le
  unfold PersistentState.lastIndex
  rw [h.entries, List.length_drop]; omega

variable {i : ℕ}

theorem entryAt (hi : st.baseIndex ≤ i) : st.entryAt (i + 1) = L[i]? := by
  unfold PersistentState.entryAt
  rw [if_neg (by omega), h.entries, List.getElem?_drop]
  congr 1; omega

theorem entryAt_some {e : Entry C} (he : st.entryAt i = some e) :
    st.baseIndex < i ∧ L[i - 1]? = some e := by
  have hi : st.baseIndex < i := by
    by_contra hlt
    unfold PersistentState.entryAt at he
    rw [if_pos (by omega)] at he
    cases he
  obtain ⟨k, rfl⟩ : ∃ k, i = k + 1 := ⟨i - 1, by omega⟩
  exact ⟨hi, by rw [Nat.add_sub_cancel, ← h.entryAt (by omega), he]⟩

theorem termAt (hi : st.baseIndex ≤ i) : st.termAt i = logTerm L i := by
  unfold PersistentState.termAt
  split_ifs with heq
  · rw [heq, h.base]
  · obtain ⟨j, rfl⟩ : ∃ j, i = j + 1 := ⟨i - 1, by omega⟩
    rw [h.entryAt (by omega)]; rfl

theorem termAt_some {t : ℕ} (ht : st.termAt i = some t) :
    st.baseIndex ≤ i ∧ logTerm L i = some t := by
  have hi : st.baseIndex ≤ i := by
    by_contra hlt
    unfold PersistentState.termAt PersistentState.entryAt at ht
    rw [if_neg (by omega), if_pos (by omega)] at ht
    cases ht
  exact ⟨hi, by rw [← h.termAt hi, ht]⟩

theorem lastTerm : st.lastTerm = (L.getLast?.map Entry.term).getD 0 := by
  have hbase := h.base_le
  unfold PersistentState.lastTerm
  rw [h.entries, List.getLast?_drop]
  split_ifs with hle
  · -- nothing is retained: the cut is the last entry
    have heq : st.baseIndex = L.length := by omega
    have hb := h.base
    rw [heq] at hb
    cases hL : L.length with
    | zero =>
      rw [hL] at hb
      rw [List.length_eq_zero_iff.mp hL]
      simpa [logTerm] using hb.symm
    | succ n =>
      rw [hL] at hb
      simp only [logTerm] at hb
      rw [List.getLast?_eq_getElem?, hL, Nat.add_sub_cancel, hb]; rfl
  · have hne : L ≠ [] := by rintro rfl; simp at hle
    rw [List.getLast?_eq_some_getLast hne]; rfl

end LogRep

/-! ## Ghost state -/

/-- The protocol parameters of a configuration. -/
def rules (C : Type) (cfg : Configuration) : Rules MemberId (Entry C) where
  IsQuorum := cfg.IsQuorum
  mono := Configuration.IsQuorum.mono
  inter := Configuration.IsQuorum.inter
  term := Entry.term

variable {v : View MemberId (Entry C)}

/-- Rooted logs that have one term at index `i` agree up to `i`. -/
theorem logTerm_agree {cfg : Configuration} (hL : (rules C cfg).Rooted v L)
    (hK : (rules C cfg).Rooted v K) (ht : logTerm L i = some t)
    (ht' : logTerm K i = some t) : L.take i = K.take i := by
  cases i with
  | zero => rfl
  | succ i =>
    simp only [logTerm, Option.map_eq_some_iff] at ht ht'
    obtain ⟨e, he, het⟩ := ht
    obtain ⟨f, hf, hft⟩ := ht'
    exact hL.agree hK he hf (show e.term = f.term by rw [het, hft])

/-- What a leader used a request identity for. -/
inductive Purpose
  | append (peer : MemberId) (last : ℕ)
  | snapshot (peer : MemberId) (last : ℕ)
  | read

/-- The abstract view, and the purpose of every request of every term's leader. -/
structure Ghost (C : Type) where
  view : View MemberId (Entry C)
  request : ℕ → ℕ → Option Purpose

/-- The ghost state before any step. -/
def Ghost.init : Ghost C := { view := View.init, request := fun _ _ => none }

/-- The ghost state only ever grows. -/
structure Ghost.Le (g g' : Ghost C) : Prop where
  view : Protocol.Le g.view g'.view
  request : ∀ {t k q}, g.request t k = some q → g'.request t k = some q

theorem Ghost.Le.refl (g : Ghost C) : g.Le g := ⟨Protocol.Le.refl _, id⟩

theorem Ghost.Le.trans {g g' g'' : Ghost C} (h : g.Le g') (h' : g'.Le g'') : g.Le g'' :=
  ⟨h.view.trans h'.view, fun hq => h'.request (h.request hq)⟩

variable (cfg : Configuration)

/-- `g'` is reached from `g` by protocol actions of `m` and new requests of the
terms it leads. -/
structure Evolves (m : MemberId) (g g' : Ghost C) : Prop where
  acts : Relation.ReflTransGen (Act (rules C cfg) m) g.view g'.view
  ext : Ext m g.view g'.view
  request : ∀ {t k q}, g.request t k = some q → g'.request t k = some q
  request_ne : ∀ {t k x}, x ≠ m → g.view.leader t = some x → g'.request t k = g.request t k
  request_new : ∀ {t k q}, g'.request t k = some q →
    g.request t k = some q ∨ g'.view.leader t = some m

/-- The invariant of the ghost state: that of the protocol, and only leaders have
issued requests. -/
structure GhostInv (g : Ghost C) : Prop extends (rules C cfg).Inv g.view where
  held : g.view.Held
  led : ∀ {t k q}, g.request t k = some q → ∃ c, g.view.leader t = some c

variable {cfg} {m : MemberId} {g g' g'' : Ghost C}

theorem Evolves.refl (m : MemberId) (g : Ghost C) : Evolves cfg m g g :=
  ⟨.refl, Ext.refl _ _, id, fun _ _ => rfl, Or.inl⟩

theorem Evolves.trans (h : Evolves cfg m g g') (h' : Evolves cfg m g' g'') :
    Evolves cfg m g g'' where
  acts := h.acts.trans h'.acts
  ext := h.ext.trans h'.ext
  request hq := h'.request (h.request hq)
  request_ne hx hl := (h'.request_ne hx (h.ext.leader hl)).trans (h.request_ne hx hl)
  request_new hq := by
    rcases h'.request_new hq with hq | hl
    · exact (h.request_new hq).imp id h'.ext.leader
    · exact Or.inr hl

theorem Evolves.le (h : Evolves cfg m g g') : g.Le g' := ⟨h.ext.toLe, h.request⟩

theorem inv_of_acts {w : View MemberId (Entry C)} (hinv : (rules C cfg).Inv v) (hheld : v.Held)
    (hacts : Relation.ReflTransGen (Act (rules C cfg) m) v w) :
    (rules C cfg).Inv w ∧ w.Held := by
  induction hacts with
  | refl => exact ⟨hinv, hheld⟩
  | tail _ hact ih => exact ⟨ih.1.act hact, ih.2.act ih.1 hact⟩

theorem Evolves.inv (h : Evolves cfg m g g') (hinv : GhostInv cfg g) : GhostInv cfg g' :=
  { (inv_of_acts hinv.toInv hinv.held h.acts).1 with
    held := (inv_of_acts hinv.toInv hinv.held h.acts).2
    led := fun hq => by
      rcases h.request_new hq with hq | hl
      · obtain ⟨c, hc⟩ := hinv.led hq
        exact ⟨c, h.ext.leader hc⟩
      · exact ⟨m, hl⟩ }

/-- One protocol action. -/
theorem Evolves.act (hinv : GhostInv cfg g)
    (a : Act (rules C cfg) m g.view v) : Evolves cfg m g { g with view := v } where
  acts := .single a
  ext := a.ext hinv.toInv
  request := id
  request_ne _ _ := rfl
  request_new := Or.inl

/-- The current leader registers a request. -/
def Ghost.issue (g : Ghost C) (t k : ℕ) (q : Purpose) : Ghost C :=
  { g with request := fun t' k' => if t' = t ∧ k' = k then some q else g.request t' k' }

theorem Ghost.issue_self (g : Ghost C) (t k : ℕ) (q : Purpose) :
    (g.issue t k q).request t k = some q := by simp [Ghost.issue]

theorem Evolves.issue {k : ℕ} {q : Purpose} (hl : g.view.leader t = some m)
    (hnew : g.request t k = none) : Evolves cfg m g (g.issue t k q) where
  acts := .refl
  ext := Ext.refl _ _
  request := by
    intro t' k' q' hq
    simp only [Ghost.issue]
    split_ifs with heq
    · rw [heq.1, heq.2, hnew] at hq; cases hq
    · exact hq
  request_ne := by
    intro t' k' x hx hl'
    simp only [Ghost.issue]
    split_ifs with heq
    · rw [heq.1, hl] at hl'; exact absurd (Option.some.inj hl').symm hx
    · rfl
  request_new := by
    intro t' k' q' hq
    simp only [Ghost.issue] at hq
    split_ifs at hq with heq
    · right; rw [heq.1]; exact hl
    · exact Or.inl hq

/-! ## Messages -/

/-- An append carries a range of its sender's log as the leader of term `t`. -/
structure AppendInv (g : Ghost C) (sender recipient : MemberId)
    (t request prev prevTerm : ℕ) (entries : List (Entry C)) (commit : ℕ) : Prop where
  leader : g.view.leader t = some sender
  issued : g.request t request = some (.append recipient (prev + entries.length))
  reach : prev + entries.length ≤ (g.view.leaderLog t).length
  range : entries = ((g.view.leaderLog t).take (prev + entries.length)).drop prev
  prevTerm : logTerm (g.view.leaderLog t) prev = some prevTerm
  commit : Protocol.Committed g.view t (g.view.leaderLog t) commit

/-- A cut is a committed prefix of the log of the leader of term `t`. -/
structure CutInv (g : Ghost C) (t : ℕ) (cut : SnapshotCut) : Prop where
  term : logTerm (g.view.leaderLog t) cut.index = some cut.term
  committed : Protocol.Committed g.view t (g.view.leaderLog t) cut.index

/-- A snapshot offer names a cut of its sender's log as the leader of term `t`. -/
structure OfferInv (g : Ghost C) (sender recipient : MemberId) (t request : ℕ)
    (cut : SnapshotCut) : Prop where
  leader : g.view.leader t = some sender
  issued : g.request t request = some (.snapshot recipient cut.index)
  cut : CutInv g t cut

/-- What a released message proves. -/
def MsgInv (g : Ghost C) (env : Envelope C) : Prop :=
  match env.message with
  | .requestVote t lastIndex lastTerm => ∃ L, g.view.stood env.sender t = some L ∧
      lastIndex = L.length ∧ lastTerm = (L.getLast?.map Entry.term).getD 0
  | .vote t granted => granted = true → g.view.voted env.sender t = some env.recipient
  | .append t request prev prevTerm entries commit =>
      AppendInv g env.sender env.recipient t request prev prevTerm entries commit
  | .appended t request success _ => success = true → ∃ last,
      g.request t request = some (.append env.sender last) ∧ last ≤ g.view.acked env.sender t
  | .installSnapshot t request cut => OfferInv g env.sender env.recipient t request cut
  | .snapshotInstalled t request => ∃ last,
      g.request t request = some (.snapshot env.sender last) ∧ last ≤ g.view.acked env.sender t
  | _ => True

theorem Committed.extend {b n : ℕ} (h : Protocol.Committed v b L n)
    (hpre : L <+: K) : Protocol.Committed v b K n := by
  obtain ⟨J, rfl⟩ := hpre
  exact h.take_eq le_rfl (List.take_append_of_le_length h.le_length)

theorem AppendInv.mono (hle : g.Le g') {sender recipient request prev prevTerm commit : ℕ}
    {entries : List (Entry C)}
    (h : AppendInv g sender recipient t request prev prevTerm entries commit) :
    AppendInv g' sender recipient t request prev prevTerm entries commit where
  leader := hle.view.leader h.leader
  issued := hle.request h.issued
  reach := h.reach.trans (hle.view.leaderLog t).length_le
  range := by
    obtain ⟨K, hK⟩ := hle.view.leaderLog t
    rw [← hK, List.take_append_of_le_length h.reach]
    exact h.range
  prevTerm := by
    rw [logTerm_extend (hle.view.leaderLog t) (logTerm_le h.prevTerm), h.prevTerm]
  commit := (Committed.extend h.commit (hle.view.leaderLog t)).mono hle.view le_rfl

theorem CutInv.mono (hle : g.Le g') {cut : SnapshotCut} (h : CutInv g t cut) : CutInv g' t cut where
  term := by rw [logTerm_extend (hle.view.leaderLog t) (logTerm_le h.term), h.term]
  committed := (Committed.extend h.committed (hle.view.leaderLog t)).mono hle.view le_rfl

theorem OfferInv.mono (hle : g.Le g') {sender recipient request : ℕ} {cut : SnapshotCut}
    (h : OfferInv g sender recipient t request cut) :
    OfferInv g' sender recipient t request cut :=
  ⟨hle.view.leader h.leader, hle.request h.issued, h.cut.mono hle⟩

theorem MsgInv.mono (hle : g.Le g') {env : Envelope C} (h : MsgInv g env) : MsgInv g' env := by
  unfold MsgInv at *
  split at h
  · obtain ⟨L, hst, hrest⟩ := h
    exact ⟨L, hle.view.stood hst, hrest⟩
  · exact fun hg => hle.view.voted (h hg)
  · exact AppendInv.mono hle h
  · intro hs
    obtain ⟨last, hq, hlast⟩ := h hs
    exact ⟨last, hle.request hq, hlast.trans (hle.view.acked _ _)⟩
  · exact OfferInv.mono hle h
  · obtain ⟨last, hq, hlast⟩ := h
    exact ⟨last, hle.request hq, hlast.trans (hle.view.acked _ _)⟩
  · trivial

/-! ## Machines -/

variable (cfg)

/-- The persistent state of member `m` represents its part of the view. -/
structure Durable (g : Ghost C) (m : MemberId) (st : PersistentState C) : Prop where
  configuration : st.configuration = cfg
  term : g.view.cur m = st.term
  vote : g.view.voted m st.term = st.votedFor
  log : LogRep (g.view.log m) st
  base_commit : st.baseIndex ≤ st.commitIndex
  commit : Protocol.Committed g.view st.term (g.view.log m) st.commitIndex

/-- An outstanding request of the leader of term `t` to `peer`. -/
def FlightInv (g : Ghost C) (t : ℕ) (peer : MemberId) : InFlight → Prop
  | .append request _ last => g.request t request = some (.append peer last)
  | .snapshot request cut => g.request t request = some (.snapshot peer cut.index) ∧ CutInv g t cut

/-- What a leader tracks about a peer is backed by acknowledgements. -/
structure ProgressInv (g : Ghost C) (t : ℕ) (peer : MemberId) (progress : Progress) : Prop where
  matched : progress.matched ≤ g.view.acked peer t
  inFlight : ∀ flight ∈ progress.inFlight, FlightInv g t peer flight

/-- The votes of a candidate are recorded, and it neither leads nor tracks yet. -/
structure CandidateInv (g : Ghost C) (r : Raft C) : Prop where
  stood : g.view.stood r.id r.state.term = some (g.view.log r.id)
  unelected : g.view.leader r.state.term ≠ some r.id
  votes : ∀ x ∈ r.votes, g.view.voted x r.state.term = some r.id
  progress : r.progress = ∅

/-- A leader leads its term, has issued no request beyond its counter, and tracks the others. -/
structure LeaderInv (g : Ghost C) (r : Raft C) : Prop where
  leader : g.view.leader r.state.term = some r.id
  acked : g.view.acked r.id r.state.term = (g.view.log r.id).length
  commit : g.view.commit r.state.term ≤ r.state.commitIndex
  progress : ∀ peer progress, r.progress[peer]? = some progress →
    ProgressInv g r.state.term peer progress
  request : ∀ k q, g.request r.state.term k = some q → k ≤ r.request
  others : r.progress[r.id]? = none

/-- The machine `r` represents its member's part of the view. -/
structure NodeInv (g : Ghost C) (r : Raft C) : Prop where
  durable : Durable cfg g r.id r.state
  candidate : r.role = .candidate → CandidateInv g r
  leading : r.role = .leader → LeaderInv g r
  incoming : ∀ pending, r.incomingSnapshot = some pending → r.role = .follower ∧
    OfferInv g pending.transfer.source r.id pending.term pending.request pending.transfer.snapshot

variable {cfg}

theorem Durable.evolve {x : MemberId} {st : PersistentState C} (he : Evolves cfg m g g')
    (hx : x ≠ m) (h : Durable cfg g x st) : Durable cfg g' x st where
  configuration := h.configuration
  term := by rw [he.ext.cur_ne hx, h.term]
  vote := by rw [he.ext.voted_ne hx, h.vote]
  log := by rw [he.ext.log_ne hx]; exact h.log
  base_commit := h.base_commit
  commit := by rw [he.ext.log_ne hx]; exact h.commit.mono he.le.view le_rfl

theorem FlightInv.mono (hle : g.Le g') {peer : MemberId} {flight : InFlight}
    (h : FlightInv g t peer flight) : FlightInv g' t peer flight := by
  cases flight with
  | append request prev last => exact hle.request h
  | snapshot request cut => exact ⟨hle.request h.1, h.2.mono hle⟩

theorem ProgressInv.mono (hle : g.Le g') {peer : MemberId} {progress : Progress}
    (h : ProgressInv g t peer progress) : ProgressInv g' t peer progress :=
  ⟨h.matched.trans (hle.view.acked _ _), fun flight hf => (h.inFlight flight hf).mono hle⟩

variable {r : Raft C}

/-- A machine is not disturbed by the actions of another member. -/
theorem NodeInv.evolve (he : Evolves cfg m g g') (hx : r.id ≠ m)
    (h : NodeInv cfg g r) : NodeInv cfg g' r where
  durable := h.durable.evolve he hx
  candidate hr := by
    obtain ⟨hst, hun, hv, hp⟩ := h.candidate hr
    refine ⟨?_, fun hl => hun (he.ext.leader_ne hx hl), fun x hxv => he.ext.voted (hv x hxv), hp⟩
    rw [he.ext.stood_ne hx, he.ext.log_ne hx, hst]
  leading hr := by
    obtain ⟨hl, ha, hc, hp, hq, ho⟩ := h.leading hr
    refine ⟨he.ext.leader hl, ?_, ?_, fun peer progress hpr => (hp peer progress hpr).mono he.le,
      fun k q hk => ?_, ho⟩
    · rw [he.ext.acked_ne hx, he.ext.log_ne hx, ha]
    · rw [he.ext.commit_ne hx hl]; exact hc
    · rw [he.request_ne hx hl] at hk; exact hq k q hk
  incoming pending hp := (h.incoming pending hp).imp id (OfferInv.mono he.le)

/-! ## Steps under way -/

/-- What no method changes, and the promises of the write flag. -/
structure Frame (r r' : Raft C) : Prop where
  id : r'.id = r.id
  configuration : r'.state.configuration = r.state.configuration
  initialized : r'.initialized = r.initialized
  incarnation : r'.incarnation = r.incarnation
  commit : r.state.commitIndex ≤ r'.state.commitIndex
  kept : r'.logChanged = false → r.logChanged = false ∧
    r'.state.entries = r.state.entries ∧ r'.state.snapshot = r.state.snapshot

theorem Frame.refl (r : Raft C) : Frame r r :=
  ⟨rfl, rfl, rfl, rfl, le_rfl, fun h => ⟨h, rfl, rfl⟩⟩

/-- The fields a frame speaks of. -/
def Raft.framed (r : Raft C) : MemberId × PersistentState C × Bool × ℕ × Bool :=
  (r.id, r.state, r.initialized, r.incarnation, r.logChanged)

/-- A change outside the persistent state and the flags. -/
theorem Frame.same {r' : Raft C} (h : r'.framed = r.framed) : Frame r r' := by
  simp only [Raft.framed, Prod.mk.injEq] at h
  obtain ⟨hid, hstate, hinit, hinc, hlog⟩ := h
  exact ⟨hid, by rw [hstate], hinit, hinc, by rw [hstate],
    fun hk => ⟨hlog ▸ hk, by rw [hstate], by rw [hstate]⟩⟩

theorem Frame.trans {r' r'' : Raft C} (h : Frame r r') (h' : Frame r' r'') : Frame r r'' where
  id := h'.id.trans h.id
  configuration := h'.configuration.trans h.configuration
  initialized := h'.initialized.trans h.initialized
  incarnation := h'.incarnation.trans h.incarnation
  commit := h.commit.trans h'.commit
  kept hk := by
    obtain ⟨h1, h2, h3⟩ := h'.kept hk
    obtain ⟨h4, h5, h6⟩ := h.kept h1
    exact ⟨h4, h2.trans h5, h3.trans h6⟩

variable (cfg)

/-- A step under way: the machine represents the view, and the messages collected
so far hold in it. -/
structure Good (g : Ghost C) (s : Stepped C) : Prop where
  inv : GhostInv cfg g
  node : NodeInv cfg g s.1
  sent : ∀ env ∈ s.2.messages, MsgInv g env

/-- From `g` and machine `r` the protocol can move to a view in which `s` is
good. -/
def Refines (g : Ghost C) (r : Raft C) (s : Stepped C) : Prop :=
  Frame r s.1 ∧ ∃ g', Evolves cfg r.id g g' ∧ Good cfg g' s

variable {cfg}

theorem Good.durable {output : Output C} (h : Good cfg g (r, output)) :
    Durable cfg g r.id r.state := h.node.durable

theorem Good.leading {output : Output C} (h : Good cfg g (r, output))
    (hr : r.role = .leader) : LeaderInv g r := h.node.leading hr

variable {s : Stepped C}

theorem Refines.refl (h : Good cfg g s) : Refines cfg g s.1 s :=
  ⟨Frame.refl _, g, Evolves.refl _ _, h⟩

/-- Sequencing of methods. -/
theorem Refines.after {r₁ : Raft C} {g₁ : Ghost C} (hf : Frame r r₁) (he : Evolves cfg r.id g g₁)
    (h : Refines cfg g₁ r₁ s) : Refines cfg g r s := by
  obtain ⟨hf', g', he', hg'⟩ := h
  rw [hf.id] at he'
  exact ⟨hf.trans hf', g', he.trans he', hg'⟩

theorem Refines.bind {s' : Stepped C} (h : Refines cfg g r s)
    (h' : ∀ g', Good cfg g' s → Refines cfg g' s.1 s') : Refines cfg g r s' := by
  obtain ⟨hf, g', he, hg⟩ := h
  exact Refines.after hf he (h' g' hg)

variable {message : Message C}

/-- A message that holds in the view may be collected. -/
theorem Good.emit {output : Output C} {recipient : MemberId} (h : Good cfg g (r, output))
    (hmsg : MsgInv g (r.envelope recipient message)) :
    Good cfg g (r, r.emit recipient message output) where
  inv := h.inv
  node := h.node
  sent := by
    intro env henv
    simp only [Raft.emit, List.mem_append, List.mem_singleton] at henv
    rcases henv with henv | rfl
    · exact h.sent env henv
    · exact hmsg

theorem Raft.mem_emitAll {recipients : List MemberId} {output : Output C} {env : Envelope C}
    (henv : env ∈ (r.emitAll recipients message output).messages) :
    env ∈ output.messages ∨ ∃ recipient ∈ recipients, env = r.envelope recipient message := by
  unfold Raft.emitAll at henv
  induction recipients generalizing output with
  | nil => exact Or.inl henv
  | cons a rest ih =>
    rcases ih henv with h | ⟨b, hb, rfl⟩
    · simp only [Raft.emit, List.mem_append, List.mem_singleton] at h
      rcases h with h | rfl
      · exact Or.inl h
      · exact Or.inr ⟨a, List.mem_cons_self, rfl⟩
    · exact Or.inr ⟨b, List.mem_cons_of_mem _ hb, rfl⟩

theorem Good.emitAll {output : Output C} {recipients : List MemberId} (h : Good cfg g (r, output))
    (hmsg : ∀ recipient, MsgInv g (r.envelope recipient message)) :
    Good cfg g (r, r.emitAll recipients message output) where
  inv := h.inv
  node := h.node
  sent := by
    intro env henv
    rcases Raft.mem_emitAll henv with henv | ⟨recipient, _, rfl⟩
    · exact h.sent env henv
    · exact hmsg recipient

/-- Only the messages of the output matter. -/
theorem Good.output {r : Raft C} {output : Output C} (h : Good cfg g (r, output))
    (output' : Output C) (heq : output'.messages = output.messages) : Good cfg g (r, output') :=
  ⟨h.inv, h.node, by rw [heq]; exact h.sent⟩

end FrankenGraph.Order

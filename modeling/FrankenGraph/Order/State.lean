import FrankenGraph.Order.Configuration

/-!
# The data of the Raft kernel

The data types of `crates/fgdb-order/src/lib.rs` (L200-718), of
`liveness.rs` and of `leadership.rs`: snapshot cuts, entries, the persistent
state, messages, events, outputs and the machine itself. Terms, indices and
counters are `u64` in the source; they are natural numbers here, and every
`checked_add` keeps its bound.

An `Arc<()>` is only compared by address, so an incarnation is the number of its
allocation.
-/

namespace FrankenGraph.Order

/-! ## Snapshots, entries and the persistent state -/

/-- `struct SnapshotCut` (L202-211). The proofs are the structural checks of
its only constructor. -/
structure SnapshotCut where
  domain : Domain
  configuration : Digest
  manifest : Digest
  stateRoot : Digest
  retentionFloor : Digest
  index : ℕ
  term : ℕ
  index_ne_zero : index ≠ 0
  index_ne_max : index ≠ u64Max
  term_ne_zero : term ≠ 0
deriving DecidableEq

/-- `SnapshotCut::from_authenticated_parts` (L219-239). -/
def SnapshotCut.fromAuthenticatedParts (configuration : Configuration)
    (manifest stateRoot retentionFloor : Digest) (index term : ℕ) : Except Error SnapshotCut :=
  if h : index = 0 ∨ index = u64Max ∨ term = 0 then .error .invalidSnapshot
  else .ok { domain := configuration.domain, configuration := configuration.identity, manifest,
             stateRoot, retentionFloor, index, term, index_ne_zero := fun h0 => h (Or.inl h0),
             index_ne_max := fun h0 => h (Or.inr (Or.inl h0)),
             term_ne_zero := fun h0 => h (Or.inr (Or.inr h0)) }

/-- `struct Limits` (L271-275). -/
structure Limits where
  maxLogEntries : ℕ
  maxAppendEntries : ℕ
deriving DecidableEq

/-- `Limits::default`. -/
def Limits.default : Limits := { maxLogEntries := 65536, maxAppendEntries := 128 }

/-- `struct Entry<C>`; a no-op has no command. -/
structure Entry (C : Type) where
  term : ℕ
  command : Option C
deriving DecidableEq

/-- `struct PersistentState<C>` (L296-303). -/
@[ext]
structure PersistentState (C : Type) where
  configuration : Configuration
  term : ℕ
  votedFor : Option MemberId
  commitIndex : ℕ
  snapshot : Option SnapshotCut
  entries : List (Entry C)
deriving DecidableEq

variable {C : Type}

/-- `base_index` (L371-373). -/
def PersistentState.baseIndex (st : PersistentState C) : ℕ :=
  (st.snapshot.map SnapshotCut.index).getD 0

/-- `base_term` (L375-377). -/
def PersistentState.baseTerm (st : PersistentState C) : ℕ :=
  (st.snapshot.map SnapshotCut.term).getD 0

/-- The state `Raft::new` starts from. -/
def PersistentState.initial (configuration : Configuration) : PersistentState C :=
  { configuration, term := 0, votedFor := none, commitIndex := 0, snapshot := none, entries := [] }

/-- `Raft::last_index` (L1108-1110). -/
def PersistentState.lastIndex (st : PersistentState C) : ℕ := st.baseIndex + st.entries.length

/-- `Raft::entry_at` (L1172-1175). -/
def PersistentState.entryAt (st : PersistentState C) (index : ℕ) : Option (Entry C) :=
  if index < st.baseIndex + 1 then none else st.entries[index - st.baseIndex - 1]?

/-- `Raft::term_at` (L1177-1183). -/
def PersistentState.termAt (st : PersistentState C) (index : ℕ) : Option ℕ :=
  if index = st.baseIndex then some st.baseTerm else (st.entryAt index).map Entry.term

/-- `Raft::last_term` (L1185-1190). -/
def PersistentState.lastTerm (st : PersistentState C) : ℕ :=
  (st.entries.getLast?.map Entry.term).getD st.baseTerm

/-! ## Messages and events -/

/-- `enum Role` (L381-387). -/
inductive Role
  | follower
  | preCandidate
  | candidate
  | leader
deriving DecidableEq

/-- `enum Message<C>` (L390-458). -/
inductive Message (C : Type)
  | preVoteRequest (prospectiveTerm round lastIndex lastTerm : ℕ)
  | preVoteReply (term prospectiveTerm round : ℕ) (granted : Bool)
  | quorumProbe (term round : ℕ)
  | quorumReply (term round : ℕ)
  | timeoutNow (term round lastIndex lastTerm : ℕ)
  | requestVote (term lastIndex lastTerm : ℕ)
  | vote (term : ℕ) (granted : Bool)
  | append (term request prevIndex prevTerm : ℕ) (entries : List (Entry C)) (leaderCommit : ℕ)
  | appended (term request : ℕ) (success : Bool) (conflictNext : ℕ)
  | installSnapshot (term request : ℕ) (snapshot : SnapshotCut)
  | snapshotInstalled (term request : ℕ)
deriving DecidableEq

/-- `Message::term` (L461-476): a prospective term is never
followed. -/
def Message.term : Message C → ℕ
  | .preVoteRequest .. => 0
  | .preVoteReply term .. => term
  | .quorumProbe term _ => term
  | .quorumReply term _ => term
  | .timeoutNow term .. => term
  | .requestVote term .. => term
  | .vote term _ => term
  | .append term .. => term
  | .appended term .. => term
  | .installSnapshot term .. => term
  | .snapshotInstalled term _ => term

/-- `struct Envelope<C>`; the fields `from` and `to` are `sender` and `recipient`. -/
structure Envelope (C : Type) where
  domain : Domain
  configuration : Digest
  sender : MemberId
  recipient : MemberId
  message : Message C
deriving DecidableEq

/-- `struct PersistenceId` (L581-584); equality compares both fields. -/
structure PersistenceId where
  incarnation : ℕ
  generation : ℕ
deriving DecidableEq

/-- `struct SnapshotTransferId`. -/
structure SnapshotTransferId where
  id : PersistenceId
deriving DecidableEq

/-- `struct LeadershipTransferId`. -/
structure LeadershipTransferId where
  id : PersistenceId
deriving DecidableEq

/-- `enum Event<C>` (L489-537). -/
inductive Event (C : Type)
  | electionTimeout
  | livenessTimeout
  | heartbeat
  | transferLeadership (target : MemberId)
  | abortLeadershipTransfer (id : LeadershipTransferId)
  | propose (command : C)
  | proposeBatch (commands : List C)
  | receive (envelope : Envelope C)
  | compact (snapshot : SnapshotCut)
  | snapshotReady (id : SnapshotTransferId)
  | snapshotFailed (id : SnapshotTransferId)
deriving DecidableEq

/-! ## Outputs -/

/-- `struct SnapshotTransfer` (L600-604). -/
structure SnapshotTransfer where
  id : SnapshotTransferId
  source : MemberId
  snapshot : SnapshotCut
deriving DecidableEq

/-- `struct Committed<C>` (L645-648). -/
structure Committed (C : Type) where
  index : ℕ
  entry : Entry C
deriving DecidableEq

/-- `struct Output<C>` (L652-668). -/
structure Output (C : Type) where
  messages : List (Envelope C)
  committed : List (Committed C)
  snapshotTransfers : List SnapshotTransfer
  cancelledSnapshotTransfers : List SnapshotTransferId
  installedSnapshot : Option SnapshotCut
  resetElectionTimer : Bool
  role : Role
  leader : Option MemberId
deriving DecidableEq

/-- `struct Persistence<C>` (L622-626): the view `step` returns. -/
structure Persistence (C : Type) where
  id : PersistenceId
  state : PersistentState C
  requiresWrite : Bool
deriving DecidableEq

/-! ## The machine -/

/-- `enum InFlight` (L671-674). -/
inductive InFlight
  | append (request prev last : ℕ)
  | snapshot (request : ℕ) (snapshot : SnapshotCut)
deriving DecidableEq

/-- `InFlight::last` (`pipeline.rs` L13-18). -/
def InFlight.last : InFlight → ℕ
  | .append _ _ last => last
  | .snapshot _ cut => cut.index

def InFlight.isSnapshot : InFlight → Bool
  | .append .. => false
  | .snapshot .. => true

/-- `struct Progress` (L677-687). -/
structure Progress where
  matched : ℕ
  next : ℕ
  inFlight : List InFlight
  probing : Bool
  sentCommit : ℕ
deriving DecidableEq

/-- `struct IncomingSnapshot` (L690-694). -/
structure IncomingSnapshot where
  transfer : SnapshotTransfer
  term : ℕ
  request : ℕ
deriving DecidableEq

/-- `struct PreVoteRound` (`liveness.rs` L18-22). -/
structure PreVoteRound where
  term : ℕ
  round : ℕ
  voters : MemberSet
deriving DecidableEq

/-- `struct QuorumRound` (`liveness.rs` L24-27). -/
structure QuorumRound where
  round : ℕ
  voters : MemberSet
deriving DecidableEq

/-- `struct LivenessState` (`liveness.rs` L12-16). -/
structure LivenessState where
  enabled : Bool
  preVote : Option PreVoteRound
  quorum : Option QuorumRound
deriving DecidableEq

/-- `LivenessState::reset` (`liveness.rs` L30-35). -/
def LivenessState.reset (s : LivenessState) : LivenessState :=
  { s with preVote := none, quorum := none }

/-- `enum LeadershipTransferPhase`. -/
inductive LeadershipTransferPhase
  | catchingUp
  | electionRequested
deriving DecidableEq

/-- `struct LeadershipTransfer` (`leadership.rs` L26-33). -/
structure LeadershipTransfer where
  id : LeadershipTransferId
  target : MemberId
  term : ℕ
  lastIndex : ℕ
  lastTerm : ℕ
  phase : LeadershipTransferPhase
deriving DecidableEq

/-- `struct Raft<C>` (L699-718). -/
structure Raft (C : Type) where
  id : MemberId
  state : PersistentState C
  role : Role
  leader : Option MemberId
  votes : MemberSet
  progress : Std.ExtTreeMap MemberId Progress compare
  limits : Limits
  appendWindow : ℕ
  generation : ℕ
  incarnation : ℕ
  initialized : Bool
  logChanged : Bool
  request : ℕ
  incomingSnapshot : Option IncomingSnapshot
  pending : Option (PersistenceId × Output C)
  poisoned : Bool
  liveness : LivenessState
  handoff : Option LeadershipTransfer
deriving DecidableEq

end FrankenGraph.Order

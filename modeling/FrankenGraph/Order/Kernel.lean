import FrankenGraph.Library.Fallible
import FrankenGraph.Order.Transition

/-!
# The Raft kernel

Message handling, admission and the publication gate of
`crates/fgdb-order/src/lib.rs`: snapshots (L1336-1445), `acknowledge` and
`receive` (L1447-1680), `validate_event` (L951-1106), `new` and
`recover` (L721-788), `step` and `persisted` (L835-939).

A `step` that fails after admission leaves the machine poisoned, and every public
method of a poisoned machine answers `RecoveryRequired` before it reads anything
else, so the half-made transition is dropped here.
-/

namespace FrankenGraph.Order

variable {C : Type}

namespace Raft

/-! ## Snapshots -/

section

variable [DecidableEq C]

/-- `compact` (L1336-1353). -/
def compact (r : Raft C) (snapshot : SnapshotCut) : Raft C :=
  if r.state.snapshot = some snapshot then r
  else
    let count := snapshot.index - r.state.baseIndex
    { r with
      state := { r.state with entries := r.state.entries.drop count, snapshot := some snapshot }
      logChanged := true
      progress := r.progress.map fun _ progress =>
        { progress with inFlight := [], next := progress.matched + 1, probing := true } }

/-- `offer_snapshot` (L1355-1413). -/
def offerSnapshot (r : Raft C) (sender : MemberId) (term request : ℕ) (snapshot : SnapshotCut)
    (output : Output C) : Stepped C :=
  if term < r.state.term then
    (r, r.emit sender (.appended r.state.term request false (r.state.lastIndex + 1)) output)
  else
    let (r, output) := r.acceptLeader sender term output
    if snapshot.index ≤ r.state.commitIndex then
      (r, r.emit sender (.snapshotInstalled term request) output)
    else
      let transfer : SnapshotTransfer :=
        { id := ⟨{ incarnation := r.incarnation, generation := r.generation }⟩, source := sender,
          snapshot }
      let offered :=
        ({ r with incomingSnapshot := some { transfer, term, request } },
          { output with snapshotTransfers := output.snapshotTransfers ++ [transfer] })
      match r.incomingSnapshot with
      | none => offered
      | some pending =>
        if pending.term = term ∧ pending.request = request ∧ pending.transfer.source = sender ∧
            pending.transfer.snapshot = snapshot then
          (r, { output with snapshotTransfers := output.snapshotTransfers ++ [pending.transfer] })
        else if pending.term = term ∧ pending.transfer.source = sender ∧
            request < pending.request then (r, output)
        else offered

/-- The machine after an installation (L1426-1434). -/
def adoptSnapshot (r : Raft C) (snapshot : SnapshotCut) : Raft C :=
  let entries := if r.state.termAt snapshot.index = some snapshot.term then
      r.state.entries.drop (snapshot.index - r.state.baseIndex)
    else []
  { r with
    incomingSnapshot := none
    state := { r.state with entries, commitIndex := snapshot.index, snapshot := some snapshot }
    logChanged := true }

/-- `install_snapshot` (L1415-1445). -/
def installSnapshot (r : Raft C) (output : Output C) : Except Error (Stepped C) :=
  match r.incomingSnapshot with
  | none => .error .staleSnapshotTransfer
  | some pending =>
    let snapshot := pending.transfer.snapshot
    if snapshot.index ≤ r.state.commitIndex then .error .staleSnapshotTransfer
    else
      let r := r.adoptSnapshot snapshot
      .ok (r, r.emit pending.transfer.source (.snapshotInstalled r.state.term pending.request)
        { output with installedSnapshot := some snapshot })

/-! ## Replies -/

/-- `acknowledge` (L1447-1471). -/
def acknowledge (r : Raft C) (sender : MemberId) (last : ℕ) (output : Output C) :
    Except Error (Stepped C) :=
  let r := { r with progress := r.progress.modify sender fun progress =>
    let matched := max progress.matched last
    { progress with
      matched
      next := max progress.next (matched + 1)
      probing := false
      inFlight := progress.inFlight.filter fun flight => decide (last < flight.last) } }
  let (r, advanced) := r.advanceCommit
  if advanced then r.broadcast output false
  else if last < r.state.lastIndex ∨ r.progress[sender]?.any (fun progress =>
      decide (progress.inFlight = [] ∧ progress.sentCommit < r.state.commitIndex)) then
    r.sendAppend sender output false
  else .ok (r, output)

/-- The `while` loop that backs the conflict hint up over one term
(L1570-1572). -/
def backUp (st : PersistentState C) (conflictTerm : ℕ) : ℕ → ℕ
  | 0 => 0
  | next + 1 =>
    if st.baseIndex + 1 < next + 1 ∧ st.termAt next = some conflictTerm then
      backUp st conflictTerm next
    else next + 1

/-- The hint of a rejected append (L1565-1573). -/
def conflictNext (st : PersistentState C) (prevIndex : ℕ) : ℕ :=
  let next := min (saturatingAdd st.lastIndex 1) (max prevIndex 1)
  if prevIndex < st.baseIndex then st.baseIndex + 1
  else
    match st.termAt prevIndex with
    | none => next
    | some conflictTerm => backUp st conflictTerm next

/-- The loop over the entries of an append (L1587-1602) on the retained
log and `log_changed`. -/
def appendEntries (position : ℕ) : List (Entry C) → List (Entry C) × Bool → List (Entry C) × Bool
  | [], s => s
  | entry :: rest, (log, changed) =>
    let (log, changed) :=
      if log[position]?.any fun mine => decide (mine.term ≠ entry.term) then
        (log.take position, true)
      else (log, changed)
    let (log, changed) :=
      if position = log.length then (log ++ [entry], true) else (log, changed)
    appendEntries (position + 1) rest (log, changed)

/-- The machine after the entries of a matching append (L1586-1609). -/
def takeAppend (r : Raft C) (prevIndex : ℕ) (entries : List (Entry C)) (leaderCommit : ℕ) :
    Raft C :=
  let matched := prevIndex + entries.length
  let (log, changed) := appendEntries (prevIndex - r.state.baseIndex) entries
    (r.state.entries, r.logChanged)
  let r := { r with
    logChanged := changed
    state := { r.state with
      entries := log
      commitIndex := max r.state.commitIndex (min leaderCommit matched) } }
  if r.incomingSnapshot.any fun pending =>
      decide (pending.transfer.snapshot.index ≤ r.state.commitIndex) then
    { r with incomingSnapshot := none }
  else r

/-- The `Append` arm of `receive` (L1542-1620). -/
def receiveAppend (r : Raft C) (sender : MemberId) (term request prevIndex prevTerm : ℕ)
    (entries : List (Entry C)) (leaderCommit : ℕ) (output : Output C) : Stepped C :=
  if term < r.state.term then
    (r, r.emit sender (.appended r.state.term request false (r.state.lastIndex + 1)) output)
  else
    let (r, output) := r.acceptLeader sender term output
    if r.state.termAt prevIndex ≠ some prevTerm then
      (r, r.emit sender (.appended term request false (conflictNext r.state prevIndex)) output)
    else
      let r := r.takeAppend prevIndex entries leaderCommit
      (r, r.emit sender (.appended term request true 0) output)

/-- The `Appended` arm of `receive` (L1621-1653). -/
def receiveAppended (r : Raft C) (sender : MemberId) (term request : ℕ) (success : Bool)
    (conflictNext : ℕ) (output : Output C) : Except Error (Stepped C) :=
  if term ≠ r.state.term ∨ r.role ≠ .leader then .ok (r, output)
  else
    match r.pendingAppend sender request with
    | some (.append _ prev last) =>
      if success then r.acknowledge sender last output
      else
        let ceiling := r.state.lastIndex + 1
        let r := { r with progress := r.progress.modify sender fun progress =>
          let hint := if prev + 1 < conflictNext then min conflictNext ceiling
            else min (max conflictNext 1) (max prev 1)
          { progress with
            next := max hint (progress.matched + 1), inFlight := [], probing := true } }
        r.sendAppend sender output false
    | _ => .ok (r, output)

/-- The `SnapshotInstalled` arm of `receive` (L1659-1677). -/
def receiveSnapshotInstalled (r : Raft C) (sender : MemberId) (term request : ℕ)
    (output : Output C) : Except Error (Stepped C) :=
  if term ≠ r.state.term ∨ r.role ≠ .leader then .ok (r, output)
  else
    match (r.progress[sender]?).bind fun progress => progress.inFlight.head? with
    | some (.snapshot expected snapshot) =>
      if expected = request then r.acknowledge sender snapshot.index output else .ok (r, output)
    | _ => .ok (r, output)

/-- The `RequestVote` arm of `receive` (L1509-1533). -/
def receiveRequestVote (r : Raft C) (sender : MemberId) (term lastIndex lastTerm : ℕ)
    (output : Output C) : Stepped C :=
  if term = r.state.term ∧ r.isVoter r.id = true ∧
      (r.state.votedFor = none ∨ r.state.votedFor = some sender) ∧
      r.freshEnough lastTerm lastIndex = true then
    let r := if r.role = .preCandidate then r.follow term else r
    let r := { r with state := { r.state with votedFor := some sender } }
    (r, r.emit sender (.vote r.state.term true) { output with resetElectionTimer := true })
  else (r, r.emit sender (.vote r.state.term false) output)

/-- The `Vote` arm of `receive` (L1534-1541). -/
def receiveVote (r : Raft C) (sender : MemberId) (term : ℕ) (granted : Bool)
    (output : Output C) : Except Error (Stepped C) :=
  if term = r.state.term ∧ r.role = .candidate ∧ granted = true then
    let r := { r with votes := r.votes.insert sender }
    if r.state.configuration.quorum r.votes then r.becomeLeader output else .ok (r, output)
  else .ok (r, output)

/-- `receive` (L1473-1680). -/
def receive (r : Raft C) (envelope : Envelope C) (output : Output C) : Except Error (Stepped C) :=
  let sender := envelope.sender
  let r := if r.state.term < envelope.message.term then r.follow envelope.message.term else r
  match envelope.message with
  | .preVoteRequest prospectiveTerm round lastIndex lastTerm =>
    .ok (r, r.preVoteRequest sender prospectiveTerm round lastIndex lastTerm output)
  | .preVoteReply _ prospectiveTerm round granted =>
    r.preVoteReply sender prospectiveTerm round granted output
  | .quorumProbe term round => .ok (r.quorumProbe sender term round output)
  | .quorumReply term round => .ok (r.quorumReply sender term round, output)
  | .timeoutNow term _ lastIndex lastTerm => r.timeoutNow sender term lastIndex lastTerm output
  | .requestVote term lastIndex lastTerm =>
    .ok (r.receiveRequestVote sender term lastIndex lastTerm output)
  | .vote term granted => r.receiveVote sender term granted output
  | .append term request prevIndex prevTerm entries leaderCommit =>
    .ok (r.receiveAppend sender term request prevIndex prevTerm entries leaderCommit output)
  | .appended term request success conflictNext =>
    r.receiveAppended sender term request success conflictNext output
  | .installSnapshot term request snapshot =>
    .ok (r.offerSnapshot sender term request snapshot output)
  | .snapshotInstalled term request => r.receiveSnapshotInstalled sender term request output

/-! ## Admission -/

/-- `available` (L819-827). -/
def available (r : Raft C) : Except Error Unit :=
  if r.poisoned then .error .recoveryRequired
  else if r.pending.isSome then .error .awaitingDurability
  else .ok ()

/-- `leadership::validate_event` (`leadership.rs` L62-93). -/
def validateLeadership (r : Raft C) : Event C → Except Error Unit
  | .transferLeadership target => do
    refuse (r.role ≠ .leader) .notLeader
    refuse (target = r.id ∨ !r.isVoter target) .invalidLeadershipTarget
    refuse (r.state.term = u64Max) .counterExhausted
    refuse (r.handoff.any fun pending => decide (pending.target ≠ target))
      .leadershipTransferInProgress
  | .abortLeadershipTransfer id =>
    refuse (!r.handoff.any fun pending => decide (pending.id = id)) .staleLeadershipTransfer
  | _ => .ok ()

/-- `leadership::validate_message` (`leadership.rs` L95-112). -/
def validateHandoff : Message C → Except Error Unit
  | .timeoutNow term round lastIndex lastTerm =>
    refuse (term = 0 ∨ term = u64Max ∨ round = 0 ∨ lastIndex = u64Max ∨
      decide (lastIndex = 0) ≠ decide (lastTerm = 0) ∨ term < lastTerm) .invalidMessage
  | _ => .ok ()

/-- `liveness::validate` (`liveness.rs` L42-75). -/
def validateLiveness : Message C → Except Error Unit
  | .preVoteRequest prospectiveTerm round lastIndex lastTerm =>
    refuse (prospectiveTerm = 0 ∨ round = 0 ∨ lastIndex = u64Max ∨
      decide (lastIndex = 0) ≠ decide (lastTerm = 0) ∨ prospectiveTerm ≤ lastTerm) .invalidMessage
  | .preVoteReply term prospectiveTerm round granted =>
    refuse (prospectiveTerm = 0 ∨ round = 0 ∨ granted = true ∧ prospectiveTerm ≤ term)
      .invalidMessage
  | .quorumProbe _ round => refuse (round = 0) .invalidMessage
  | .quorumReply _ round => refuse (round = 0) .invalidMessage
  | _ => .ok ()

/-- `validate_snapshot` (L941-949). -/
def validateSnapshot (r : Raft C) (snapshot : SnapshotCut) : Except Error Unit := do
  refuse (snapshot.domain ≠ r.state.configuration.domain) .wrongDomain
  refuse (snapshot.configuration ≠ r.state.configuration.identity) .wrongConfiguration

/-- `validate_proposal_count` (L1120-1149). -/
def validateProposalCount (r : Raft C) (count : ℕ) : Except Error Unit := do
  refuse (r.role ≠ .leader) .notLeader
  refuse r.handoff.isSome .leadershipTransferInProgress
  refuse (count = 0) .invalidMessage
  refuse (r.limits.maxAppendEntries < count) .appendTooLarge
  refuse (r.limits.maxLogEntries - r.state.entries.length < count) .logFull
  refuse (u64Max ≤ r.state.lastIndex + count) .counterExhausted

/-- The term checks on a run of entries that both `recover` and the admission of
an append make (L761-767 and 1031-1037). -/
def termsAscend (bound : ℕ) : ℕ → List (Entry C) → Bool
  | _, [] => true
  | previous, entry :: rest =>
    decide (entry.term ≠ 0 ∧ previous ≤ entry.term ∧ entry.term ≤ bound) &&
      termsAscend bound entry.term rest

/-- The loop that compares an append with the local entries (L1045-1058). -/
def appendConflict (r : Raft C) : ℕ → List (Entry C) → Except Error Unit
  | _, [] => .ok ()
  | index, entry :: rest =>
    match r.state.entryAt index with
    | none => r.appendConflict (index + 1) rest
    | some mine =>
      if mine.term ≠ entry.term then refuse (index ≤ r.state.commitIndex) .committedConflict
      else if mine.command ≠ entry.command then .error .entryIdentityConflict
      else r.appendConflict (index + 1) rest

/-- The checks on an append (L1014-1060). -/
def validateAppend (r : Raft C) (term prevIndex prevTerm : ℕ) (entries : List (Entry C)) :
    Except Error Unit := do
  refuse (r.limits.maxAppendEntries < entries.length) .appendTooLarge
  refuse (decide (prevIndex = 0) ≠ decide (prevTerm = 0) ∨ term < prevTerm) .invalidMessage
  refuse (u64Max ≤ prevIndex + entries.length) .invalidMessage
  refuse (!termsAscend term prevTerm entries) .invalidMessage
  if r.state.term ≤ term ∧ r.state.termAt prevIndex = some prevTerm then do
    refuse (r.limits.maxLogEntries < prevIndex + entries.length - r.state.baseIndex) .logFull
    r.appendConflict (prevIndex + 1) entries
  else .ok ()

/-- The checks on a snapshot offer (L1073-1099). -/
def validateOffer (r : Raft C) (sender : MemberId) (term request : ℕ) (snapshot : SnapshotCut) :
    Except Error Unit := do
  r.validateSnapshot snapshot
  refuse (term < snapshot.term) .invalidSnapshot
  if r.state.term ≤ term then do
    refuse (snapshot.index ≤ r.state.commitIndex ∧
      (r.state.termAt snapshot.index).any fun mine => decide (mine ≠ snapshot.term))
      .snapshotConflict
    refuse (r.incomingSnapshot.any fun pending => decide (pending.term = term ∧
      pending.transfer.source = sender ∧ pending.request = request ∧
      pending.transfer.snapshot ≠ snapshot)) .snapshotConflict
  else .ok ()

/-- The checks every envelope passes first (L984-1012). -/
def validateEnvelope (r : Raft C) (envelope : Envelope C) : Except Error Unit := do
  refuse (envelope.domain ≠ r.state.configuration.domain) .wrongDomain
  refuse (envelope.configuration ≠ r.state.configuration.identity) .wrongConfiguration
  refuse (envelope.recipient ≠ r.id ∨ envelope.sender = r.id) .wrongRecipient
  refuse (!r.state.configuration.contains envelope.sender) .unknownMember
  refuse ((match envelope.message with
    | .appended .. => false
    | .snapshotInstalled .. => false
    | _ => !r.isVoter envelope.sender) : Bool) .notVoter
  refuse ((match envelope.message with
    | .preVoteRequest .. => false
    | .preVoteReply .. => false
    | message => decide (message.term = 0)) : Bool) .invalidMessage
  validateLiveness envelope.message
  validateHandoff envelope.message

/-- The `Receive` arm of `validate_event` (L983-1102). -/
def validateReceive (r : Raft C) (envelope : Envelope C) : Except Error Unit := do
  r.validateEnvelope envelope
  match envelope.message with
  | .append term _ prevIndex prevTerm entries _ => r.validateAppend term prevIndex prevTerm entries
  | .requestVote term lastIndex lastTerm =>
    refuse (decide (lastIndex = 0) ≠ decide (lastTerm = 0) ∨ term < lastTerm ∨
      lastIndex = u64Max) .invalidMessage
  | .installSnapshot term request snapshot =>
    r.validateOffer envelope.sender term request snapshot
  | _ => .ok ()

/-- `validate_event` (L951-1106). -/
def validateEvent (r : Raft C) (event : Event C) : Except Error Unit := do
  r.validateLeadership event
  match event with
  | .electionTimeout => refuse (!r.isVoter r.id) .notVoter
  | .livenessTimeout => do
    refuse (!r.isVoter r.id) .notVoter
    refuse (r.role ≠ .leader ∧ r.state.term = u64Max) .counterExhausted
  | .propose _ => r.validateProposalCount 1
  | .proposeBatch commands => r.validateProposalCount commands.length
  | .compact snapshot => do
    r.validateSnapshot snapshot
    refuse (r.state.snapshot ≠ some snapshot ∧ (snapshot.index ≤ r.state.baseIndex ∨
      r.state.commitIndex < snapshot.index ∨
      r.state.termAt snapshot.index ≠ some snapshot.term)) .invalidSnapshot
  | .snapshotReady id | .snapshotFailed id =>
    refuse (!r.incomingSnapshot.any fun pending => decide (pending.transfer.id = id ∧
      pending.term = r.state.term ∧ r.leader = some pending.transfer.source))
      .staleSnapshotTransfer
  | .receive envelope => r.validateReceive envelope
  | _ => .ok ()

/-! ## Construction and recovery -/

/-- `recover` (L731-788); `incarnation` is the fresh `Arc`. -/
def recover (id : MemberId) (state : PersistentState C) (limits : Limits) (incarnation : ℕ) :
    Except Error (Raft C) := do
  refuse (limits.maxLogEntries = 0 ∨ limits.maxAppendEntries = 0 ∨
    limits.maxLogEntries < limits.maxAppendEntries) .invalidLimits
  refuse (!state.configuration.contains id) .unknownMember
  refuse (u64Max ≤ state.lastIndex) .invalidRecoveryState
  refuse (limits.maxLogEntries < state.entries.length ∨ state.commitIndex < state.baseIndex ∨
    state.lastIndex < state.commitIndex ∨ state.term < state.baseTerm ∨
    state.snapshot.any (fun snapshot => decide (snapshot.domain ≠ state.configuration.domain ∨
      snapshot.configuration ≠ state.configuration.identity)) ∨
    state.term = 0 ∧ state.votedFor.isSome ∨
    state.votedFor.any fun member => !state.configuration.voters.contains member)
    .invalidRecoveryState
  refuse (!termsAscend state.term state.baseTerm state.entries) .invalidRecoveryState
  .ok { id, state, role := .follower, leader := none, votes := ∅, progress := ∅, limits,
        appendWindow := 1, generation := 0, incarnation, initialized := true,
        logChanged := false, request := 0, incomingSnapshot := none, pending := none,
        poisoned := false, liveness := { enabled := false, preVote := none, quorum := none },
        handoff := none }

/-- `new` (L721-729). -/
def new (id : MemberId) (configuration : Configuration) (limits : Limits) (incarnation : ℕ) :
    Except Error (Raft C) := do
  let node ← recover id (.initial configuration) limits incarnation
  .ok { node with initialized := false }

/-- `committed_after` (L808-817). -/
def committedAfter (r : Raft C) (applied : ℕ) : Except Error (List (Committed C)) := do
  r.available
  refuse (r.state.commitIndex < applied) .invalidRecoveryState
  refuse (applied < r.state.baseIndex) .snapshotRequired
  .ok (r.committedRange applied)

/-- `publication_failed` (L830-832). -/
def publicationFailed (r : Raft C) : Raft C := { r with poisoned := true }

/-- `configure_append_pipeline` (`pipeline.rs` L30-40). -/
def configureAppendPipeline (r : Raft C) (maximum : ℕ) : Except Error (Raft C) := do
  r.available
  refuse (maximum = 0 ∨ 64 < maximum) .invalidLimits
  refuse (r.role ≠ .follower ∨ !r.progress.isEmpty) .pipelineConfigurationBusy
  .ok { r with appendWindow := maximum }

/-! ## Steps and the publication gate -/

/-- The `match event` of `step` (L863-887). -/
def transition (r : Raft C) (event : Event C) (output : Output C) : Except Error (Stepped C) :=
  match event with
  | .electionTimeout => r.campaign output
  | .livenessTimeout => { r with handoff := none }.livenessTimeout output
  | .transferLeadership target => r.startHandoff target output
  | .abortLeadershipTransfer _ => .ok ({ r with handoff := none }, output)
  | .heartbeat =>
    if r.role = .leader then do
      let (r, output) ← r.broadcast output true
      .ok (r, r.retryQuorumProbe output)
    else .ok (r, output)
  | .propose command => r.appendProposals [command] output
  | .proposeBatch commands => r.appendProposals commands output
  | .receive envelope => r.receive envelope output
  | .compact snapshot => .ok (r.compact snapshot, output)
  | .snapshotReady _ => r.installSnapshot output
  | .snapshotFailed _ => .ok ({ r with incomingSnapshot := none }, output)

/-- The `retry_handoff` flag of `step`. -/
def retryHandoff : Event C → Bool
  | .heartbeat => true
  | .transferLeadership _ => true
  | _ => false

/-- The output `step` starts with (L849-858). -/
def freshOutput (r : Raft C) : Output C :=
  { messages := [], committed := [], snapshotTransfers := [], cancelledSnapshotTransfers := [],
    installedSnapshot := none, resetElectionTimer := false, role := r.role, leader := r.leader }

/-- The rest of the output (L889-900) for a step that began in `before`. -/
def finishOutput (before r : Raft C) (output : Output C) : Output C :=
  let previous := before.incomingSnapshot.map fun pending => pending.transfer.id
  let cancelled := match previous with
    | none => []
    | some previous =>
      if output.installedSnapshot.isNone ∧ ¬ r.incomingSnapshot.any fun pending =>
          decide (pending.transfer.id = previous) then [previous] else []
  { output with
    cancelledSnapshotTransfers := output.cancelledSnapshotTransfers ++ cancelled
    committed := r.committedRange before.state.commitIndex
    role := r.role
    leader := r.leader }

/-- The `requires_write` flag (L901-908). -/
def requiresWrite (before r : Raft C) : Bool :=
  !r.initialized || r.logChanged ||
    decide ((before.state.term, before.state.votedFor, before.state.commitIndex) ≠
      (r.state.term, r.state.votedFor, r.state.commitIndex))

/-- `step` (L835-920). -/
def step (r : Raft C) (event : Event C) : Except Error (Persistence C) × Raft C :=
  match (do r.available; r.validateEvent event : Except Error Unit) with
  | .error error => (.error error, r)
  | .ok () =>
    match checkedAdd r.generation 1 with
    | none => (.error .counterExhausted, r)
    | some generation =>
      let fenced := { r with logChanged := false, poisoned := true, generation }
      match fenced.transition event r.freshOutput with
      | .error error => (.error error, fenced)
      | .ok (moved, output) =>
        let (moved, output) := moved.driveHandoff output (retryHandoff event)
        let id : PersistenceId := { incarnation := moved.incarnation, generation }
        (.ok { id, state := moved.state, requiresWrite := requiresWrite r moved },
          { moved with pending := some (id, finishOutput r moved output), poisoned := false })

/-- `persisted` (L926-939). -/
def persisted (r : Raft C) (id : PersistenceId) : Except Error (Output C × Raft C) :=
  if r.poisoned then .error .recoveryRequired
  else
    match r.pending with
    | some (expected, output) =>
      if expected = id then .ok (output, { r with pending := none, initialized := true })
      else .error .stalePersistence
    | none => .error .stalePersistence

end

end Raft

end FrankenGraph.Order

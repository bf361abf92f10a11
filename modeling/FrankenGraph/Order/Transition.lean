import FrankenGraph.Order.State

/-!
# The transitions of the Raft kernel

The mutating methods of `Raft<C>` in `crates/fgdb-order/src/lib.rs`
(L1108-1334), `pipeline.rs`, `liveness.rs` and `leadership.rs`, in the
order of their calls. A method on `&mut self` takes the machine and the output
collected so far and returns both; a method that can fail returns them in
`Except Error`.
-/

namespace FrankenGraph.Order

variable {C : Type}

/-- A machine in the middle of a step, with the output collected so far. -/
abbrev Stepped (C : Type) := Raft C × Output C

namespace Raft

/-- The `voters.contains(&self.id)` test. -/
def isVoter (r : Raft C) (member : MemberId) : Bool := r.state.configuration.voters.contains member

/-- `(last_term, last_index) >= (self.last_term(), self.last_index())`. -/
def freshEnough (r : Raft C) (lastTerm lastIndex : ℕ) : Bool :=
  decide (r.state.lastTerm < lastTerm ∨
    r.state.lastTerm = lastTerm ∧ r.state.lastIndex ≤ lastIndex)

/-- `committed_range` (L1192-1203). -/
def committedRange (r : Raft C) (after : ℕ) : List (Committed C) :=
  let base := r.state.baseIndex
  let after := max after base
  ((r.state.entries.take (r.state.commitIndex - base)).drop (after - base)).mapIdx
    fun offset entry => { index := after + offset + 1, entry }

/-! ## Messages -/

/-- The envelope `emit` pushes. -/
def envelope (r : Raft C) (recipient : MemberId) (message : Message C) : Envelope C :=
  { domain := r.state.configuration.domain, configuration := r.state.configuration.identity,
    sender := r.id, recipient, message }

/-- `emit` (L1205-1213). -/
def emit (r : Raft C) (recipient : MemberId) (message : Message C) (output : Output C) :
    Output C :=
  { output with messages := output.messages ++ [r.envelope recipient message] }

/-- `emit` of one message to each of several members. -/
def emitAll (r : Raft C) (recipients : List MemberId) (message : Message C) (output : Output C) :
    Output C :=
  recipients.foldl (fun output recipient => r.emit recipient message output) output

/-- The other voters, in ascending order. -/
def otherVoters (r : Raft C) : List MemberId :=
  r.state.configuration.voters.toList.filter fun member => decide (member ≠ r.id)

/-! ## Following -/

/-- `follow` (L1215-1227). -/
def follow (r : Raft C) (term : ℕ) : Raft C :=
  let r := if r.state.term < term then
      { r with state := { r.state with term, votedFor := none }, incomingSnapshot := none }
    else r
  { r with role := .follower, leader := none, votes := ∅, progress := ∅,
           liveness := r.liveness.reset, handoff := none }

/-- `accept_leader` (L1229-1240). -/
def acceptLeader (r : Raft C) (sender : MemberId) (term : ℕ) (output : Output C) :
    Stepped C :=
  let r := r.follow term
  let r := if r.incomingSnapshot.any fun pending => decide (pending.transfer.source ≠ sender) then
      { r with incomingSnapshot := none }
    else r
  ({ r with leader := some sender }, { output with resetElectionTimer := true })

/-! ## The append pipeline -/

/-- `slice::get(start..end)`. -/
def slice (entries : List (Entry C)) (start stop : ℕ) : Option (List (Entry C)) :=
  if start ≤ stop ∧ stop ≤ entries.length then some ((entries.take stop).drop start) else none

/-- The message `emit_flight` builds (`pipeline.rs` L146-176). -/
def flightMessage (r : Raft C) : InFlight → Option (Message C)
  | .append request prev last => do
    let prevTerm ← r.state.termAt prev
    let base := r.state.baseIndex
    if prev < base ∨ last < base then none
    else
      let entries ← slice r.state.entries (prev - base) (last - base)
      some (.append r.state.term request prev prevTerm entries r.state.commitIndex)
  | .snapshot request cut => some (.installSnapshot r.state.term request cut)

/-- `emit_flight` (`pipeline.rs` L140-184). -/
def emitFlight (r : Raft C) (peer : MemberId) (flight : InFlight) (output : Output C) :
    Except Error (Stepped C) :=
  match r.flightMessage flight with
  | none => .error .invalidRecoveryState
  | some message =>
    let sent := if flight.isSnapshot then r else
      { r with progress := r.progress.modify peer fun progress =>
          { progress with sentCommit := r.state.commitIndex } }
    .ok (sent, sent.emit peer message output)

/-- The flight the loop of `send_append` opens next (`pipeline.rs`
L102-123); `r.request` is already its request. -/
def nextFlight (r : Raft C) (next : ℕ) : Option InFlight :=
  if next ≤ r.state.baseIndex then r.state.snapshot.map (.snapshot r.request)
  else some (.append r.request (next - 1)
    (min r.state.lastIndex (saturatingAdd (next - 1) r.limits.maxAppendEntries)))

/-- The loop of `send_append` (`pipeline.rs` L86-137). `room` is the capacity
less the length of `in_flight`: no pass changes the capacity and each pushes
one flight, so `room = 0` is the test `in_flight.len() >= capacity`. -/
def sendWindow (peer : MemberId) : (room : ℕ) → Raft C → Output C → Except Error (Stepped C)
  | 0, r, output => .ok (r, output)
  | room + 1, r, output =>
    match r.progress[peer]? with
    | none => .error .invalidRecoveryState
    | some progress =>
      if progress.inFlight.head?.any InFlight.isSnapshot ∨
          r.state.lastIndex < progress.next ∧ progress.inFlight ≠ [] then .ok (r, output)
      else
        match checkedAdd r.request 1 with
        | none => .error .counterExhausted
        | some request =>
          let r := { r with request }
          match r.nextFlight progress.next with
          | none => .error .invalidRecoveryState
          | some flight => do
            let (r, output) ← r.emitFlight peer flight output
            let r := { r with progress := r.progress.modify peer fun progress =>
              { progress with
                next := if flight.isSnapshot then progress.next else flight.last + 1
                inFlight := progress.inFlight ++ [flight] } }
            sendWindow peer room r output

/-- `send_append` (`pipeline.rs` L69-138). -/
def sendAppend (r : Raft C) (peer : MemberId) (output : Output C) (retry : Bool) :
    Except Error (Stepped C) :=
  match r.progress[peer]? with
  | none => .ok (r, output)
  | some progress => do
    let (r, output) ←
      (if retry then progress.inFlight else []).foldlM
        (fun (s : Stepped C) flight => s.1.emitFlight peer flight s.2) (r, output)
    let capacity := if progress.probing then 1 else r.appendWindow
    sendWindow peer (capacity - progress.inFlight.length) r output

/-- `broadcast` (L1328-1334). -/
def broadcast (r : Raft C) (output : Output C) (retry : Bool) : Except Error (Stepped C) :=
  r.progress.keys.foldlM
    (fun (s : Stepped C) peer => s.1.sendAppend peer s.2 retry) (r, output)

/-- `pending_append` (`pipeline.rs` L63-67). -/
def pendingAppend (r : Raft C) (peer : MemberId) (request : ℕ) : Option InFlight :=
  (r.progress[peer]?).bind fun progress => progress.inFlight.find? fun
    | .append issued _ _ => decide (issued = request)
    | .snapshot _ _ => false

/-! ## Commitment -/

/-- What the closure of `advance_commit` reports for a member. -/
def matchedIndex (r : Raft C) (member : MemberId) : ℕ :=
  if member = r.id then r.state.lastIndex else (r.progress[member]?.map Progress.matched).getD 0

/-- `advance_commit` (L1310-1326). -/
def advanceCommit (r : Raft C) : Raft C × Bool :=
  let candidate := r.state.configuration.quorumIndex r.matchedIndex
  if r.state.commitIndex < candidate ∧ r.state.termAt candidate = some r.state.term then
    ({ r with state := { r.state with commitIndex := candidate } }, true)
  else (r, false)

/-- `append_proposals` (L1155-1170). -/
def appendProposals (r : Raft C) (commands : List C) (output : Output C) :
    Except Error (Stepped C) :=
  let r := { r with
    logChanged := true
    state := { r.state with
      entries := r.state.entries ++
        commands.map fun command => Entry.mk r.state.term (some command) } }
  r.advanceCommit.1.broadcast output false

/-! ## Quorum probes -/

/-- `retry_quorum_probe` (`liveness.rs` L108-124). -/
def retryQuorumProbe (r : Raft C) (output : Output C) : Output C :=
  match r.liveness.quorum with
  | none => output
  | some quorum =>
    r.emitAll (r.state.configuration.voters.toList.filter fun member =>
        !quorum.voters.contains member)
      (.quorumProbe r.state.term quorum.round) output

/-- `start_quorum_probe` (`liveness.rs` L99-106). -/
def startQuorumProbe (r : Raft C) (output : Output C) : Stepped C :=
  let r := { r with liveness := { r.liveness with
    quorum := some { round := r.generation, voters := .ofList [r.id] } } }
  (r, r.retryQuorumProbe { output with resetElectionTimer := true })

/-! ## Elections -/

/-- The tracker of a newly elected leader. -/
def freshProgress (r : Raft C) (next : ℕ) : Std.ExtTreeMap MemberId Progress compare :=
  (r.state.configuration.members.filter fun member => decide (member ≠ r.id)).foldl
    (fun progress member => progress.insert member
      { matched := 0, next, inFlight := [], probing := true, sentCommit := 0 }) r.progress

/-- The first lines of `become_leader` (L1276-1292). -/
def takeLead (r : Raft C) : Raft C :=
  { r with
    role := .leader, leader := some r.id, progress := r.freshProgress (r.state.lastIndex + 1) }

/-- The no-op of a new leader (L1293-1301): at capacity or at the last index
there is none. -/
def appendNoOp (r : Raft C) : Raft C :=
  if r.state.entries.length < r.limits.maxLogEntries ∧ r.state.lastIndex + 1 < u64Max then
    { r with
      logChanged := true
      state := { r.state with
        entries := r.state.entries ++ [{ term := r.state.term, command := none }] } }
  else r

/-- `become_leader` (L1275-1308). -/
def becomeLeader (r : Raft C) (output : Output C) : Except Error (Stepped C) := do
  let (r, output) ← r.takeLead.appendNoOp.advanceCommit.1.broadcast output false
  if r.liveness.enabled then .ok (r.startQuorumProbe output) else .ok (r, output)

/-- The lines of `campaign` that enter the next term and vote for oneself
(L1251-1254). -/
def standFor (r : Raft C) (term : ℕ) : Raft C :=
  let r := r.follow term
  { r with
    role := .candidate
    state := { r.state with votedFor := some r.id }
    votes := r.votes.insert r.id }

/-- `campaign` (L1242-1273). -/
def campaign (r : Raft C) (output : Output C) : Except Error (Stepped C) :=
  if r.role = .leader then .ok (r, output)
  else
    match checkedAdd r.state.term 1 with
    | none => .error .counterExhausted
    | some term =>
      let r := r.standFor term
      let output := { output with resetElectionTimer := true }
      if r.state.configuration.quorum r.votes then r.becomeLeader output
      else .ok (r, r.emitAll r.otherVoters
        (.requestVote term r.state.lastIndex r.state.lastTerm) output)

/-- `pre_campaign` (`liveness.rs` L164-204). -/
def preCampaign (r : Raft C) (output : Output C) : Except Error (Stepped C) :=
  if r.role = .leader then .ok (r, output)
  else
    match checkedAdd r.state.term 1 with
    | none => .error .counterExhausted
    | some term =>
      let r := { r.follow r.state.term with incomingSnapshot := none, role := .preCandidate }
      let voters : MemberSet := Std.ExtTreeSet.ofList [r.id]
      let output := { output with resetElectionTimer := true }
      if r.state.configuration.quorum voters then r.campaign output
      else
        let round := r.generation
        let r := { r with liveness := { r.liveness with preVote := some { term, round, voters } } }
        .ok (r, r.emitAll r.otherVoters
          (.preVoteRequest term round r.state.lastIndex r.state.lastTerm) output)

/-- `liveness_timeout` (`liveness.rs` L78-97). -/
def livenessTimeout (r : Raft C) (output : Output C) : Except Error (Stepped C) :=
  let r := { r with liveness := { r.liveness with enabled := true } }
  if r.role ≠ .leader then r.preCampaign output
  else if r.liveness.quorum.any fun quorum => !r.state.configuration.quorum quorum.voters then
    .ok (r.follow r.state.term, { output with resetElectionTimer := true })
  else .ok (r.startQuorumProbe output)

/-! ## Handing leadership over -/

/-- The attempt `start_handoff` opens (`leadership.rs` L128-138). -/
def newHandoff (r : Raft C) (target : MemberId) : LeadershipTransfer :=
  { id := ⟨{ incarnation := r.incarnation, generation := r.generation }⟩, target,
    term := r.state.term, lastIndex := r.state.lastIndex, lastTerm := r.state.lastTerm,
    phase := .catchingUp }

/-- `start_handoff` (`leadership.rs` L122-153). -/
def startHandoff (r : Raft C) (target : MemberId) (output : Output C) :
    Except Error (Stepped C) :=
  let r := { r with handoff := some (r.handoff.getD (r.newHandoff target)) }
  if r.progress[target]?.any fun progress => decide (progress.matched < r.state.lastIndex) then
    r.sendAppend target output true
  else .ok (r, output)

/-- `drive_handoff` (`leadership.rs` L155-182). -/
def driveHandoff (r : Raft C) (output : Output C) (retry : Bool) : Stepped C :=
  match r.handoff with
  | none => (r, output)
  | some pending =>
    if r.role ≠ .leader ∨ r.state.term ≠ pending.term then (r, output)
    else
      let caughtUp := r.progress[pending.target]?.any fun progress =>
        decide (pending.lastIndex ≤ progress.matched)
      if caughtUp = false ∨ retry = false ∧ pending.phase = .electionRequested then (r, output)
      else
        let output := r.emit pending.target (.timeoutNow pending.term pending.id.id.generation
          pending.lastIndex pending.lastTerm) output
        ({ r with handoff := some { pending with phase := .electionRequested } }, output)

/-- `timeout_now` (`leadership.rs` L184-209). -/
def timeoutNow (r : Raft C) (sender : MemberId) (term lastIndex lastTerm : ℕ)
    (output : Output C) : Except Error (Stepped C) :=
  if r.role ≠ .follower ∨ term ≠ r.state.term ∨ r.leader ≠ some sender ∨ !r.isVoter r.id ∨
      r.incomingSnapshot.isSome ∨ (r.state.lastIndex, r.state.lastTerm) ≠ (lastIndex, lastTerm) then
    .ok (r, output)
  else r.campaign output

/-! ## Liveness messages -/

/-- `quorum_probe` (`liveness.rs` L126-149). -/
def quorumProbe (r : Raft C) (sender : MemberId) (term round : ℕ) (output : Output C) :
    Stepped C :=
  let (r, output) := if term = r.state.term then r.acceptLeader sender term output else (r, output)
  (r, if r.isVoter r.id then r.emit sender (.quorumReply r.state.term round) output else output)

/-- `quorum_reply` (`liveness.rs` L151-162). -/
def quorumReply (r : Raft C) (sender : MemberId) (term round : ℕ) : Raft C :=
  if r.role ≠ .leader ∨ term ≠ r.state.term then r
  else
    let tally := fun quorum : QuorumRound =>
      if round = quorum.round then { quorum with voters := quorum.voters.insert sender }
      else quorum
    { r with liveness := { r.liveness with quorum := r.liveness.quorum.map tally } }

/-- `pre_vote_request` (`liveness.rs` L206-231). -/
def preVoteRequest (r : Raft C) (sender : MemberId) (prospectiveTerm round lastIndex lastTerm : ℕ)
    (output : Output C) : Output C :=
  let granted := r.isVoter r.id && r.leader.isNone && decide (r.state.term < prospectiveTerm) &&
    r.freshEnough lastTerm lastIndex
  r.emit sender (.preVoteReply r.state.term prospectiveTerm round granted) output

/-- `pre_vote_reply` (`liveness.rs` L233-257). -/
def preVoteReply (r : Raft C) (sender : MemberId) (prospectiveTerm round : ℕ) (granted : Bool)
    (output : Output C) : Except Error (Stepped C) :=
  if r.role ≠ .preCandidate ∨ granted = false then .ok (r, output)
  else
    match r.liveness.preVote with
    | none => .ok (r, output)
    | some pending =>
      if pending.round ≠ round ∨ pending.term ≠ prospectiveTerm then .ok (r, output)
      else
        let pending := { pending with voters := pending.voters.insert sender }
        let r := { r with liveness := { r.liveness with preVote := some pending } }
        if r.state.configuration.quorum pending.voters then r.campaign output
        else .ok (r, output)

end Raft

end FrankenGraph.Order

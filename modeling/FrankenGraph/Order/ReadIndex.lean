import FrankenGraph.Order.Kernel

/-!
# Read barriers

`crates/fgdb-order/src/read_index.rs`: a leader begins a round at its
commit index, followers that recognise it acknowledge the round's probes, and a
quorum of acknowledgements yields the index. The fields `from` and `to` are
`sender` and `recipient`.
-/

namespace FrankenGraph.Order

variable {C : Type}

/-- `struct ReadIndexProbe` (L25-32). -/
structure ReadIndexProbe where
  domain : Domain
  configuration : Digest
  sender : MemberId
  recipient : MemberId
  term : ℕ
  round : ℕ
deriving DecidableEq

/-- `struct ReadIndexAck` (L38-45). -/
structure ReadIndexAck where
  domain : Domain
  configuration : Digest
  sender : MemberId
  recipient : MemberId
  term : ℕ
  round : ℕ
deriving DecidableEq

/-- `enum ReadIndexError` (L48-60). -/
inductive ReadIndexError
  | raft (error : Error)
  | currentTermNotCommitted
  | leaderNotConfirmed
  | wrongTerm
  | wrongRound
  | foreignRound
  | completed
deriving DecidableEq

/-- `struct ReadOwner` (L86-93). -/
structure ReadOwner where
  incarnation : ℕ
  member : MemberId
  domain : Domain
  configuration : Digest
  term : ℕ
  round : ℕ
deriving DecidableEq

/-- `ReadOwner::validate` (L96-117). -/
def ReadOwner.validate (owner : ReadOwner) (r : Raft C) : Except ReadIndexError Unit := do
  refuse (owner.incarnation ≠ r.incarnation ∨ owner.member ≠ r.id) .foreignRound
  r.available.mapError .raft
  refuse (owner.domain ≠ r.state.configuration.domain) (.raft .wrongDomain)
  refuse (owner.configuration ≠ r.state.configuration.identity) (.raft .wrongConfiguration)
  refuse (owner.term ≠ r.state.term) .wrongTerm
  refuse (r.role ≠ .leader) (.raft .notLeader)
  refuse r.handoff.isSome (.raft .leadershipTransferInProgress)

/-- `struct ReadIndexRound` (L126-131). -/
structure ReadIndexRound where
  owner : Option ReadOwner
  configuration : Configuration
  index : ℕ
  acknowledged : MemberSet

/-- `struct ReadIndex` (L145-148). -/
structure ReadIndex where
  owner : ReadOwner
  index : ℕ
deriving DecidableEq

namespace Raft

/-- `begin_read_index` (L178-205). -/
def beginReadIndex (r : Raft C) : Except ReadIndexError (ReadIndexRound × Raft C) := do
  r.available.mapError .raft
  refuse (r.role ≠ .leader) (.raft .notLeader)
  refuse r.handoff.isSome (.raft .leadershipTransferInProgress)
  refuse (r.state.term = 0 ∨ r.state.termAt r.state.commitIndex ≠ some r.state.term)
    .currentTermNotCommitted
  match checkedAdd r.request 1 with
  | none => .error (.raft .counterExhausted)
  | some round =>
    .ok ({ owner := some
             { incarnation := r.incarnation, member := r.id,
               domain := r.state.configuration.domain,
               configuration := r.state.configuration.identity, term := r.state.term, round },
           configuration := r.state.configuration
           index := r.state.commitIndex
           acknowledged := .ofList [r.id] },
         { r with request := round })

/-- `acknowledge_read_index` (L215-254). -/
def acknowledgeReadIndex (r : Raft C) (probe : ReadIndexProbe) :
    Except ReadIndexError ReadIndexAck := do
  r.available.mapError .raft
  refuse (probe.domain ≠ r.state.configuration.domain) (.raft .wrongDomain)
  refuse (probe.configuration ≠ r.state.configuration.identity) (.raft .wrongConfiguration)
  refuse (probe.recipient ≠ r.id ∨ probe.sender = r.id) (.raft .wrongRecipient)
  refuse (!r.state.configuration.contains probe.sender) (.raft .unknownMember)
  refuse (!r.isVoter probe.sender || !r.isVoter r.id) (.raft .notVoter)
  refuse (probe.round = 0 ∨ probe.term = 0) (.raft .invalidMessage)
  refuse (probe.term ≠ r.state.term) .wrongTerm
  refuse (r.role ≠ .follower ∨ r.leader ≠ some probe.sender) .leaderNotConfirmed
  .ok { domain := probe.domain, configuration := probe.configuration, sender := r.id,
        recipient := probe.sender, term := probe.term, round := probe.round }

end Raft

namespace ReadIndexRound

/-- `active_owner` (L258-262). -/
def activeOwner (round : ReadIndexRound) (r : Raft C) : Except ReadIndexError ReadOwner :=
  match round.owner with
  | none => .error .completed
  | some owner => do
    owner.validate r
    .ok owner

/-- `probes` (L267-285). -/
def probes (round : ReadIndexRound) (r : Raft C) : Except ReadIndexError (List ReadIndexProbe) := do
  let owner ← round.activeOwner r
  .ok ((round.configuration.voters.toList.filter fun member =>
      !round.acknowledged.contains member).map fun member =>
    { domain := owner.domain, configuration := owner.configuration, sender := owner.member,
      recipient := member, term := owner.term, round := owner.round })

/-- `acknowledge` (L290-319). -/
def acknowledge (round : ReadIndexRound) (r : Raft C) (ack : ReadIndexAck) :
    Except ReadIndexError ReadIndexRound := do
  let owner ← round.activeOwner r
  refuse (ack.domain ≠ owner.domain) (.raft .wrongDomain)
  refuse (ack.configuration ≠ owner.configuration) (.raft .wrongConfiguration)
  refuse (ack.recipient ≠ owner.member ∨ ack.sender = owner.member) (.raft .wrongRecipient)
  refuse (!round.configuration.contains ack.sender) (.raft .unknownMember)
  refuse (!round.configuration.voters.contains ack.sender) (.raft .notVoter)
  refuse (ack.term ≠ owner.term) .wrongTerm
  refuse (ack.round ≠ owner.round) .wrongRound
  .ok { round with acknowledged := round.acknowledged.insert ack.sender }

/-- `try_complete` (L327-341). -/
def tryComplete (round : ReadIndexRound) (r : Raft C) :
    Except ReadIndexError (Option ReadIndex × ReadIndexRound) := do
  let owner ← round.activeOwner r
  if !round.configuration.quorum round.acknowledged then .ok (none, round)
  else .ok (some { owner, index := round.index },
    { round with owner := none, acknowledged := ∅ })

end ReadIndexRound

end FrankenGraph.Order

import FrankenGraph.Order.ReadIndex

/-!
# Clusters

A cluster of members that run the kernel of `crates/fgdb-order` under one
configuration, as its host drives it: a `step` leaves a publication, the host
writes its state, and only then calls `persisted`, which releases the output.
The network keeps every released message, so a message may be delivered late,
twice or never. A member may crash at any moment and start again from the state
it last published; whether the state of a pending step was written is up to the
schedule.

The trace records what the runs are judged by.
-/

namespace FrankenGraph.Order

/-- One member. `published` is the state on its medium, `machine` its running
kernel, and `covered` says that the medium holds the state of the pending
publication. -/
structure Node (C : Type) where
  published : Option (PersistentState C)
  machine : Option (Raft C)
  covered : Bool

/-- What happens in a run. -/
inductive Observation (C : Type)
  /-- `member` handed the record to its application. -/
  | released (member : MemberId) (record : Committed C)
  /-- A transition of `member` to this role and state became durable. -/
  | published (member : MemberId) (role : Role) (state : PersistentState C)
  /-- A read round that began when the trace had length `began` yielded `index`. -/
  | readCompleted (index began : ℕ)
deriving DecidableEq

structure Cluster (C : Type) where
  nodes : MemberId → Node C
  network : List (Envelope C)
  probes : List ReadIndexProbe
  acks : List ReadIndexAck
  /-- The read rounds with the length of the trace when they began. -/
  rounds : List (ReadIndexRound × ℕ)
  /-- The number of incarnations handed out. -/
  allocated : ℕ
  trace : List (Observation C)

inductive Action (C : Type)
  | start (member : MemberId) (limits : Limits)
  | crash (member : MemberId)
  | step (member : MemberId) (event : Event C)
  | publish (member : MemberId)
  | persisted (member : MemberId) (id : PersistenceId)
  | publicationFailed (member : MemberId)
  | configureAppendPipeline (member : MemberId) (maximum : ℕ)
  | committedAfter (member : MemberId) (applied : ℕ)
  | beginReadIndex (member : MemberId)
  | probes (member : MemberId) (round : ℕ)
  | acknowledgeReadIndex (member : MemberId) (probe : ReadIndexProbe)
  | acknowledge (member : MemberId) (round : ℕ) (ack : ReadIndexAck)
  | tryComplete (member : MemberId) (round : ℕ)

namespace Cluster

variable {C : Type}

/-- No member has started. -/
def init : Cluster C :=
  { nodes := fun _ => { published := none, machine := none, covered := false }, network := [],
    probes := [], acks := [], rounds := [], allocated := 0, trace := [] }

def setNode (s : Cluster C) (member : MemberId) (node : Node C) : Cluster C :=
  { s with nodes := Function.update s.nodes member node }

def observe (s : Cluster C) (seen : List (Observation C)) : Cluster C :=
  { s with trace := s.trace ++ seen }

/-- The running kernel of a member. -/
def machine (s : Cluster C) (member : MemberId) : Option (Raft C) := (s.nodes member).machine

/-- A change of the running kernel that needs no publication. -/
def setMachine (s : Cluster C) (member : MemberId) (r : Raft C) : Cluster C :=
  s.setNode member { s.nodes member with machine := some r }

/-- A member starts from what it last published, with `Raft::new` when there is
nothing. -/
def start (cfg : Configuration) (s : Cluster C) (member : MemberId) (limits : Limits) :
    Option (Cluster C) :=
  let built := match (s.nodes member).published with
    | none => Raft.new member cfg limits s.allocated
    | some state => Raft.recover member state limits s.allocated
  match built with
  | .error _ => none
  | .ok r => some { s.setNode member { s.nodes member with machine := some r, covered := false } with
      allocated := s.allocated + 1 }

variable [DecidableEq C]

/-- A member takes a step. An envelope can only be delivered to it once it has
been released. A publication without `requires_write` is already covered. -/
def step (s : Cluster C) (member : MemberId) (event : Event C) : Option (Cluster C) :=
  let deliverable : Bool := match event with
    | .receive envelope => decide (envelope ∈ s.network)
    | _ => true
  if !deliverable then none
  else
    (s.machine member).map fun r =>
      match r.step event with
      | (.error _, r') => s.setMachine member r'
      | (.ok p, r') =>
        let moved := s.setNode member
          { s.nodes member with machine := some r', covered := !p.requiresWrite }
        if p.requiresWrite then moved
        else moved.observe [.published member r'.role r'.state]

/-- The state of the pending publication reaches the medium. -/
def publish (s : Cluster C) (member : MemberId) : Option (Cluster C) :=
  (s.machine member).bind fun r =>
    if r.pending.isSome ∧ (s.nodes member).covered = false then
      some ((s.setNode member
        { published := some r.state, machine := some r, covered := true }).observe
          [.published member r.role r.state])
    else none

/-- The host reports the publication as durable and releases the output. -/
def persisted (s : Cluster C) (member : MemberId) (id : PersistenceId) : Option (Cluster C) :=
  (s.machine member).bind fun r =>
    match (s.nodes member).covered, r.persisted id with
    | true, .ok (output, r') =>
      some { (s.setMachine member r').observe (output.committed.map (.released member)) with
        network := s.network ++ output.messages }
    | _, _ => none

def act (cfg : Configuration) (s : Cluster C) : Action C → Option (Cluster C)
  | .start member limits => s.start cfg member limits
  | .crash member =>
    some (s.setNode member { s.nodes member with machine := none, covered := false })
  | .step member event => s.step member event
  | .publish member => s.publish member
  | .persisted member id => s.persisted member id
  | .publicationFailed member => (s.machine member).map fun r =>
      s.setMachine member r.publicationFailed
  | .configureAppendPipeline member maximum => (s.machine member).bind fun r =>
      match r.configureAppendPipeline maximum with
      | .ok r' => some (s.setMachine member r')
      | .error _ => none
  | .committedAfter member applied => (s.machine member).bind fun r =>
      match r.committedAfter applied with
      | .ok records => some (s.observe (records.map (.released member)))
      | .error _ => none
  | .beginReadIndex member => (s.machine member).bind fun r =>
      match r.beginReadIndex with
      | .ok (round, r') => some { s.setMachine member r' with
          rounds := s.rounds ++ [(round, s.trace.length)] }
      | .error _ => none
  | .probes member k => do
      let r ← s.machine member
      let (round, _) ← s.rounds[k]?
      match round.probes r with
      | .ok probes => some { s with probes := s.probes ++ probes }
      | .error _ => none
  | .acknowledgeReadIndex member probe => do
      let r ← s.machine member
      if probe ∈ s.probes then
        match r.acknowledgeReadIndex probe with
        | .ok ack => some { s with acks := s.acks ++ [ack] }
        | .error _ => none
      else none
  | .acknowledge member k ack => do
      let r ← s.machine member
      let (round, began) ← s.rounds[k]?
      if ack ∈ s.acks then
        match round.acknowledge r ack with
        | .ok round' => some { s with rounds := s.rounds.set k (round', began) }
        | .error _ => none
      else none
  | .tryComplete member k => do
      let r ← s.machine member
      let (round, began) ← s.rounds[k]?
      match round.tryComplete r with
      | .ok (read, round') =>
        some ({ s with rounds := s.rounds.set k (round', began) }.observe
          (read.toList.map fun read : ReadIndex => .readCompleted read.index began))
      | .error _ => none

/-- A run of the cluster. -/
def Runs (cfg : Configuration) : Cluster C → Cluster C → Prop :=
  Relation.ReflTransGen fun s s' => ∃ a, s.act cfg a = some s'

/-- The clusters that runs from the start lead to. -/
def Reachable (cfg : Configuration) (s : Cluster C) : Prop := Runs cfg init s

/-- The run of a schedule, when every action of it is possible. -/
def run (cfg : Configuration) (actions : List (Action C)) (s : Cluster C) : Option (Cluster C) :=
  actions.foldlM (fun s a => s.act cfg a) s

theorem run_runs {cfg : Configuration} {actions : List (Action C)} :
    ∀ {s s' : Cluster C}, s.run cfg actions = some s' → Runs cfg s s' := by
  induction actions with
  | nil =>
    intro s s' h
    cases h
    exact .refl
  | cons a rest ih =>
    intro s s' h
    obtain ⟨s₁, hact, hrest⟩ := Option.bind_eq_some_iff.mp h
    exact .head ⟨a, hact⟩ (ih hrest)

end Cluster

end FrankenGraph.Order

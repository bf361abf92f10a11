import FrankenGraph.Library.Effect
import FrankenGraph.Library.OrderedMap
import FrankenGraph.Resource.Bucket

/-!
# The resource ledger

The ledger of `fgdb-resource/src/ledger.rs`: quota paths (L316-388), policies, reservations and
charges, and the six transitions of `apply` with their checks in the order of the source
(L1207-1767). A transition changes the ledger in place, so it is code over a state that a
refusal leaves as it is at that point.

Whether the allocator can reserve the plan of a transition is a parameter.
-/

namespace FrankenGraph.Resource

/-! ## Quota paths -/

/-- `QuotaSegment` (L318-324). -/
inductive QuotaSegment where
  | database (id : Nat)
  | tenant (id : Nat)
  | graph (id : Nat)
  | branch (id : Nat)
  | feature (id : Nat)
  deriving DecidableEq, Repr

namespace QuotaSegment

/-- `rank` (L327-335). -/
def rank : QuotaSegment → Nat
  | .database _ => 0
  | .tenant _ => 1
  | .graph _ => 2
  | .branch _ => 3
  | .feature _ => 4

def id : QuotaSegment → Nat
  | .database id | .tenant id | .graph id | .branch id | .feature id => id

theorem eq_of_rank_id {segment other : QuotaSegment} (hrank : segment.rank = other.rank)
    (hid : segment.id = other.id) : segment = other := by
  cases segment <;> cases other <;> simp_all [rank, id]

end QuotaSegment

/-- `QuotaPath` (L340-387): a nonempty path from the database downwards, one level a segment. -/
structure QuotaPath where
  segments : List QuotaSegment
  nonempty : segments ≠ []
  ranked : segments.map QuotaSegment.rank = List.range segments.length
  deriving DecidableEq

namespace QuotaPath

/-- The numbers that the derived order of paths compares. -/
def key (path : QuotaPath) : List Nat :=
  path.segments.flatMap fun segment => [segment.rank, segment.id]

theorem eq_of_flatMap {segments others : List QuotaSegment}
    (h : segments.flatMap (fun segment => [segment.rank, segment.id]) =
      others.flatMap fun segment => [segment.rank, segment.id]) : segments = others := by
  induction segments generalizing others with
  | nil =>
    cases others with
    | nil => rfl
    | cons other others => simp at h
  | cons segment segments ih =>
    cases others with
    | nil => simp at h
    | cons other others =>
      simp only [List.flatMap_cons, List.cons_append, List.nil_append, List.cons.injEq] at h
      rw [QuotaSegment.eq_of_rank_id h.1 h.2.1, ih h.2.2]

theorem key_injective {path other : QuotaPath} (h : path.key = other.key) : path = other := by
  obtain ⟨segments, _, _⟩ := path
  obtain ⟨others, _, _⟩ := other
  obtain rfl := eq_of_flatMap h
  rfl

instance : Ord QuotaPath := ⟨fun path other => compare path.key other.key⟩

instance : Std.TransOrd QuotaPath where
  eq_swap {path other} := show compare path.key other.key = (compare other.key path.key).swap from
    Std.OrientedCmp.eq_swap
  isLE_trans {path other last} (h : (compare path.key other.key).isLE)
      (h' : (compare other.key last.key).isLE) := show (compare path.key last.key).isLE from
    Std.TransCmp.isLE_trans h h'

instance : Std.LawfulEqOrd QuotaPath where
  eq_of_compare h := key_injective (Std.LawfulEqOrd.eq_of_compare h)

/-- `depth` (L378-380). -/
def depth (path : QuotaPath) : Nat := path.segments.length

/-- The path of the first `index + 1` segments. -/
def ancestor (path : QuotaPath) (index : Nat) : QuotaPath where
  segments := path.segments.take (index + 1)
  nonempty := by
    rw [ne_eq, List.take_eq_nil_iff]
    exact fun h => h.elim (by omega) path.nonempty
  ranked := by
    rw [List.map_take, path.ranked, List.take_range, List.length_take]

/-- `ancestors_inclusive` (L382-386). -/
def ancestorsInclusive (path : QuotaPath) : List QuotaPath :=
  (List.range path.depth).map path.ancestor

theorem nodup_ancestorsInclusive (path : QuotaPath) : path.ancestorsInclusive.Nodup := by
  refine List.Nodup.map_on ?_ List.nodup_range
  intro i hi j hj h
  have hlength := congrArg (fun path => path.segments.length) h
  simp only [ancestor, List.length_take] at hlength
  rw [List.mem_range, depth] at hi hj
  omega

end QuotaPath

/-! ## Entries, policies and transitions -/

abbrev TransitionId := BitVec 256
abbrev ReservationId := BitVec 256
abbrev ChargeId := BitVec 256
abbrev StableSubjectKey := BitVec 256

instance : Std.TransOrd TransitionId := inferInstance

/-- `ResourceOwnerKey` (L847-882). -/
inductive ResourceOwnerKey where
  | attempt (posture : Nat) (registrationIdentity : BitVec 256)
  | statement (posture : Nat) (registrationIdentity : BitVec 256) (statementSeq : Nat)
  | resultDelivery (posture : Nat) (resultDeliveryId : BitVec 256)
  | subscription (cursorId : BitVec 256)
  | durableObject (objectClass : Nat) (stableLogicalOwnerKey : BitVec 256)
  | replay (replayManifestKey : BitVec 256)
  | backupPin (backupId scope : BitVec 256)
  | preparedClosure (preparedOwnershipId : BitVec 256)
  | maintenance (jobId : BitVec 256) (registeredClass : Nat)
  deriving DecidableEq

/-- `OwnerHold` (L886-893). -/
inductive OwnerHold where
  | none
  | preparedOwnership
  | finalCertification
  | resultDelivery
  | backup
  | remoteGrant
  deriving DecidableEq

/-- `ReservationEntry` (L896-904). -/
structure ReservationEntry where
  id : ReservationId
  generation : Nat
  owner : ResourceOwnerKey
  path : QuotaPath
  resourceClass : ResourceClass
  vector : DurableChargeVector
  hold : OwnerHold
  deriving DecidableEq

/-- `ChargeEntry` (L937-945). -/
structure ChargeEntry where
  id : ChargeId
  generation : Nat
  owner : ResourceOwnerKey
  path : QuotaPath
  resourceClass : ResourceClass
  vector : DurableChargeVector
  stableSubjectKey : StableSubjectKey
  deriving DecidableEq

/-- `LedgerOperationKind` (L296-303). -/
inductive LedgerOperationKind where
  | reserve
  | charge
  | release
  | expire
  | transfer
  | adjust
  deriving DecidableEq

/-- `ResourceBucketPolicy` (L623-658): only limits under which an empty bucket is valid. -/
structure ResourceBucketPolicy where
  hardLimit : DurableChargeVector
  protectedMaintenanceReserve : DurableChargeVector
  valid : (BucketState.empty hardLimit protectedMaintenanceReserve).validate = .ok ()

/-- `ResourceLimitPolicy` (L702-707). -/
structure ResourceLimitPolicy where
  epoch : Nat
  buckets : BTreeMap QuotaPath ResourceBucketPolicy
  classRules : ResourceClass → Option (List LedgerOperationKind)
  registeredMaintenanceClasses : BTreeSet Nat

/-- `allows` (L791-794). -/
def ResourceLimitPolicy.allows (policy : ResourceLimitPolicy) (resourceClass : ResourceClass)
    (operation : LedgerOperationKind) : Bool :=
  (policy.classRules resourceClass).any fun rule => operation ∈ rule

/-- `ResourceAccountingRole` (L282-285). -/
inductive ResourceAccountingRole where
  | localRole
  | metaRole
  deriving DecidableEq

/-- `ResourceLedgerIdentity` (L978-984). -/
structure ResourceLedgerIdentity where
  databaseSecurityNamespaceId : BitVec 256
  clusterIncarnation : BitVec 128
  role : ResourceAccountingRole
  limitPolicyOid : BitVec 256
  limitPolicyEpoch : Nat
  deriving DecidableEq

/-- `LedgerIdentityMismatch` (L988-1005). -/
inductive LedgerIdentityMismatch where
  | databaseSecurityNamespace (expected actual : BitVec 256)
  | clusterIncarnation (expected actual : BitVec 128)
  | limitPolicy (expected actual : BitVec 256)
  | limitPolicyEpoch (expected actual : Nat)
  deriving DecidableEq

/-- `LedgerSubject` (L1008-1011). -/
inductive LedgerSubject where
  | reservation (id : ReservationId)
  | charge (id : ChargeId)
  deriving DecidableEq

/-- `TimeEvidenceClassification` (L1027-1030). -/
inductive TimeEvidenceClassification where
  | notExpired
  | expired
  deriving DecidableEq

/-- `ExpiryEvidence` (L1015-1022). -/
structure ExpiryEvidence where
  reservationId : ReservationId
  reservationGeneration : Nat
  ownerQuiescenceProofRef : BitVec 256
  timeValidationEvidenceRef : BitVec 256
  timeClassification : TimeEvidenceClassification
  confirmsQuiescence : Bool
  deriving DecidableEq

/-- `LedgerOperation` (L1034-1072). -/
inductive LedgerOperation where
  | reserve (reservationId : ReservationId) (vector : DurableChargeVector) (hold : OwnerHold)
  | charge (reservationId : ReservationId) (expectedReservationGeneration : Nat)
      (chargeId : ChargeId) (vector : DurableChargeVector) (stableSubjectKey : StableSubjectKey)
  | release (subject : LedgerSubject) (expectedGeneration : Nat)
      (exactVector : DurableChargeVector)
  | expire (reservationId : ReservationId) (expectedGeneration : Nat)
      (exactVector : DurableChargeVector) (evidence : ExpiryEvidence)
  | transfer (subject : LedgerSubject) (expectedGeneration : Nat) (targetOwner : ResourceOwnerKey)
      (targetPath : QuotaPath) (exactConservedVector : DurableChargeVector)
  | adjust (chargeId : ChargeId) (expectedGeneration : Nat)
      (beforeVector afterVector : DurableChargeVector) (stableSubjectKey : StableSubjectKey)
  deriving DecidableEq

/-- `kind` (L1075-1084). -/
def LedgerOperation.kind : LedgerOperation → LedgerOperationKind
  | .reserve .. => .reserve
  | .charge .. => .charge
  | .release .. => .release
  | .expire .. => .expire
  | .transfer .. => .transfer
  | .adjust .. => .adjust

/-- `TransitionHeader` (L1089-1097). -/
structure TransitionHeader where
  expectedLedgerIdentity : ResourceLedgerIdentity
  transitionId : TransitionId
  idempotencyKeyDigest : BitVec 256
  expectedLedgerGeneration : Nat
  owner : ResourceOwnerKey
  resourceClass : ResourceClass
  quotaPath : QuotaPath
  deriving DecidableEq

/-- `ResourceLedgerTransition` (L1101-1107). -/
structure ResourceLedgerTransition where
  header : TransitionHeader
  operation : LedgerOperation
  bodyDigest : BitVec 256
  deriving DecidableEq

/-- `AppliedOperation` (L1110-1117). -/
inductive AppliedOperation where
  | reserved
  | charged
  | released
  | expired
  | transferred
  | adjusted
  deriving DecidableEq

/-- `ApplyDisposition` (L1120-1123). -/
inductive ApplyDisposition where
  | applied
  | replayed
  deriving DecidableEq

/-- `ApplyOutcome` (L1126-1130). -/
structure ApplyOutcome where
  ledgerGeneration : Nat
  operation : AppliedOperation
  disposition : ApplyDisposition
  deriving DecidableEq

/-- `AppliedTransition` (L1133-1136). -/
structure AppliedTransition where
  transition : ResourceLedgerTransition
  outcome : ApplyOutcome
  deriving DecidableEq

/-- `ResourceLedger` (L1140-1150). -/
structure ResourceLedger where
  identity : ResourceLedgerIdentity
  policy : ResourceLimitPolicy
  generation : Nat
  buckets : BTreeMap QuotaPath BucketState
  reservations : BTreeMap ReservationId ReservationEntry
  charges : BTreeMap ChargeId ChargeEntry
  usedReservationIds : BTreeSet ReservationId
  usedChargeIds : BTreeSet ChargeId
  appliedTransitions : BTreeMap TransitionId AppliedTransition

/-- `LedgerError` (L2003-2114). -/
inductive LedgerError where
  | unknownBucket (path : QuotaPath)
  | bucketRejected (path : QuotaPath) (cause : BucketStateError)
  | bucketPlanAllocationFailed (requestedBuckets : Nat)
  | limitPolicyEpochMismatch (identityEpoch policyEpoch : Nat)
  | vector (cause : DurableVectorError)
  | wrongAuthorityRole (expected actual : ResourceAccountingRole)
  | wrongLedgerIdentity (mismatch : LedgerIdentityMismatch)
  | staleLedgerGeneration (expected actual : Nat)
  | ledgerGenerationOverflow
  | entryGenerationOverflow
  | idempotencyBodyDrift (transitionId : TransitionId) (recorded supplied : BitVec 256)
  | idempotencySemanticDrift (transitionId : TransitionId)
  | zeroVector
  | reservationIdAlreadyUsed (reservationId : ReservationId)
  | chargeIdAlreadyUsed (chargeId : ChargeId)
  | operationDisallowedByPolicy (resourceClass : ResourceClass) (operation : LedgerOperationKind)
  | maintenanceReserveRequiresRegisteredOwner
  | unregisteredMaintenanceClass (registeredClass : Nat)
  | unknownReservation (reservationId : ReservationId)
  | unknownCharge (chargeId : ChargeId)
  | ownerMismatch
  | quotaPathMismatch (expected actual : QuotaPath)
  | resourceClassMismatch (expected actual : ResourceClass)
  | staleEntryGeneration (expected actual : Nat)
  | exactVectorMismatch (expected actual : DurableChargeVector)
  | chargeExceedsReservation (reservationId : ReservationId) (axis : DurableChargeAxis)
      (reserved charged : Nat)
  | expiryEvidenceSubjectMismatch (expected actual : ReservationId)
  | expiryEvidenceGenerationMismatch (expected actual : Nat)
  | expiryTimeNotExpired (reservationId : ReservationId)
  | expiryNotQuiescent (reservationId : ReservationId)
  | protectedOwnerCannotExpire (reservationId : ReservationId) (hold : OwnerHold)
  | noopTransfer
  | noopAdjust (chargeId : ChargeId)
  | stableSubjectKeyMismatch (chargeId : ChargeId) (expected actual : StableSubjectKey)
  | wholeChargeMustUseRelease (chargeId : ChargeId)
  deriving DecidableEq

/-! ## Planning the change of the buckets -/

/-- `ChangeDirection` (L1947-1950). -/
inductive ChangeDirection where
  | add
  | subtract
  deriving DecidableEq

/-- `BucketChange` (L1935-1944). -/
structure BucketChange where
  ordinarySub : DurableChargeVector
  ordinaryAdd : DurableChargeVector
  maintenanceSub : DurableChargeVector
  maintenanceAdd : DurableChargeVector
  ordinaryCommittedSub : DurableChargeVector
  ordinaryCommittedAdd : DurableChargeVector
  maintenanceCommittedSub : DurableChargeVector
  maintenanceCommittedAdd : DurableChargeVector

namespace BucketChange

/-- The default change: nothing. -/
def nothing : BucketChange :=
  ⟨.zero, .zero, .zero, .zero, .zero, .zero, .zero, .zero⟩

/-- The field of a change that `add_path_change` (L1952-1974) or, for committed amounts,
`add_committed_path_change` (L1976-2000) selects. -/
def amount (change : BucketChange) :
    SubjectComponent → ResourceClass → ChangeDirection → DurableChargeVector
  | .reservation, .ordinary, .add => change.ordinaryAdd
  | .reservation, .ordinary, .subtract => change.ordinarySub
  | .reservation, .registeredMaintenance, .add => change.maintenanceAdd
  | .reservation, .registeredMaintenance, .subtract => change.maintenanceSub
  | .committed, .ordinary, .add => change.ordinaryCommittedAdd
  | .committed, .ordinary, .subtract => change.ordinaryCommittedSub
  | .committed, .registeredMaintenance, .add => change.maintenanceCommittedAdd
  | .committed, .registeredMaintenance, .subtract => change.maintenanceCommittedSub

/-- The change with that field replaced. -/
def setAmount (change : BucketChange) (vector : DurableChargeVector) :
    SubjectComponent → ResourceClass → ChangeDirection → BucketChange
  | .reservation, .ordinary, .add => { change with ordinaryAdd := vector }
  | .reservation, .ordinary, .subtract => { change with ordinarySub := vector }
  | .reservation, .registeredMaintenance, .add => { change with maintenanceAdd := vector }
  | .reservation, .registeredMaintenance, .subtract => { change with maintenanceSub := vector }
  | .committed, .ordinary, .add => { change with ordinaryCommittedAdd := vector }
  | .committed, .ordinary, .subtract => { change with ordinaryCommittedSub := vector }
  | .committed, .registeredMaintenance, .add => { change with maintenanceCommittedAdd := vector }
  | .committed, .registeredMaintenance, .subtract => { change with maintenanceCommittedSub := vector }

end BucketChange

/-- The changes of a transition, bucket by bucket. -/
abbrev Changes := BTreeMap QuotaPath BucketChange

/-- Add a vector to the change of one bucket. -/
def addChange (component : SubjectComponent) (resourceClass : ResourceClass)
    (direction : ChangeDirection) (vector : DurableChargeVector) (changes : Changes)
    (path : QuotaPath) : Except LedgerError Changes := do
  let change := changes.getD path .nothing
  let target ← ((change.amount component resourceClass direction).checkedAdd vector).mapError .vector
  return changes.insert path (change.setAmount target component resourceClass direction)

/-- The vector at every bucket from the root to the path. -/
def changePath (component : SubjectComponent) (changes : Changes) (path : QuotaPath)
    (resourceClass : ResourceClass) (direction : ChangeDirection) (vector : DurableChargeVector) :
    Except LedgerError Changes :=
  path.ancestorsInclusive.foldlM (addChange component resourceClass direction vector) changes

/-- `add_path_change` (L1952-1974). -/
abbrev addPathChange := changePath .reservation

/-- `add_committed_path_change` (L1976-2000). -/
abbrev addCommittedPathChange := changePath .committed

/-- Subtract, then add. -/
def moved (vector subtracted added : DurableChargeVector) : Except LedgerError DurableChargeVector :=
  do
  let vector ← (vector.checkedSub subtracted).mapError .vector
  (vector.checkedAdd added).mapError .vector

/-- One turn of the loop of `plan_bucket_changes` (L1728-1758). -/
def planBucket (buckets : BTreeMap QuotaPath BucketState) (path : QuotaPath)
    (change : BucketChange) : Except LedgerError BucketState :=
  match buckets[path]? with
  | none => .error (.unknownBucket path)
  | some state => do
    let ordinaryReserved ← moved state.ordinaryReserved change.ordinarySub change.ordinaryAdd
    let maintenanceReserved ←
      moved state.maintenanceReserved change.maintenanceSub change.maintenanceAdd
    let ordinaryCommitted ←
      moved state.ordinaryCommitted change.ordinaryCommittedSub change.ordinaryCommittedAdd
    let maintenanceCommitted ←
      moved state.maintenanceCommitted change.maintenanceCommittedSub change.maintenanceCommittedAdd
    let planned := { state with
      ordinaryReserved, maintenanceReserved, ordinaryCommitted, maintenanceCommitted }
    planned.validate.mapError (.bucketRejected path)
    return planned

/-- `plan_bucket_changes` (L1717-1761). -/
def planBucketChanges (allocates : Nat → Bool) (buckets : BTreeMap QuotaPath BucketState)
    (changes : Changes) : Except LedgerError (List (QuotaPath × BucketState)) := do
  refuse (!allocates changes.size) (.bucketPlanAllocationFailed changes.size)
  changes.toList.mapM fun entry => do return (entry.1, ← planBucket buckets entry.1 entry.2)

/-- `install_bucket_plan` (L1763-1767). -/
def ResourceLedger.installBucketPlan (ledger : ResourceLedger)
    (plan : List (QuotaPath × BucketState)) : ResourceLedger :=
  { ledger with buckets := ledger.buckets.insertMany plan }

/-! ## Checks -/

/-- `validate_policy_owner` (L1777-1800). -/
def validatePolicyOwner (policy : ResourceLimitPolicy) (resourceClass : ResourceClass)
    (owner : ResourceOwnerKey) : Except LedgerError Unit :=
  match resourceClass, owner with
  | .ordinary, _ => .ok ()
  | .registeredMaintenance, .maintenance _ registeredClass =>
    refuse (!policy.registeredMaintenanceClasses.contains registeredClass)
      (.unregisteredMaintenanceClass registeredClass)
  | .registeredMaintenance, _ => .error .maintenanceReserveRequiresRegisteredOwner

/-- `ledger_identity_mismatch` (L1802-1831). -/
def ledgerIdentityMismatch (expected actual : ResourceLedgerIdentity) :
    Option LedgerIdentityMismatch :=
  if expected.databaseSecurityNamespaceId ≠ actual.databaseSecurityNamespaceId then
    some (.databaseSecurityNamespace expected.databaseSecurityNamespaceId
      actual.databaseSecurityNamespaceId)
  else if expected.clusterIncarnation ≠ actual.clusterIncarnation then
    some (.clusterIncarnation expected.clusterIncarnation actual.clusterIncarnation)
  else if expected.limitPolicyOid ≠ actual.limitPolicyOid then
    some (.limitPolicy expected.limitPolicyOid actual.limitPolicyOid)
  else if expected.limitPolicyEpoch ≠ actual.limitPolicyEpoch then
    some (.limitPolicyEpoch expected.limitPolicyEpoch actual.limitPolicyEpoch)
  else none

/-- `SubjectSnapshot` (L1834-1841). -/
structure SubjectSnapshot where
  owner : ResourceOwnerKey
  path : QuotaPath
  resourceClass : ResourceClass
  generation : Nat
  vector : DurableChargeVector
  component : SubjectComponent
  deriving DecidableEq

/-- `SubjectSnapshot::add_change_at` (L1869-1883): the component picks one of the two changes. -/
abbrev SubjectSnapshot.addChangeAt (snapshot : SubjectSnapshot) (changes : Changes) (path : QuotaPath)
    (direction : ChangeDirection) : Except LedgerError Changes :=
  changePath snapshot.component changes path snapshot.resourceClass direction snapshot.vector

/-- `SubjectSnapshot::add_change` (L1861-1867). -/
abbrev SubjectSnapshot.addChange (snapshot : SubjectSnapshot) (changes : Changes)
    (direction : ChangeDirection) : Except LedgerError Changes :=
  snapshot.addChangeAt changes snapshot.path direction

def ReservationEntry.snapshot (entry : ReservationEntry) : SubjectSnapshot :=
  ⟨entry.owner, entry.path, entry.resourceClass, entry.generation, entry.vector, .reservation⟩

def ChargeEntry.snapshot (entry : ChargeEntry) : SubjectSnapshot :=
  ⟨entry.owner, entry.path, entry.resourceClass, entry.generation, entry.vector, .committed⟩

/-- The lookup of a reservation, or `UnknownReservation`. -/
def ResourceLedger.reservation (ledger : ResourceLedger) (id : ReservationId) :
    Except LedgerError ReservationEntry :=
  match ledger.reservations[id]? with
  | none => .error (.unknownReservation id)
  | some entry => .ok entry

/-- The lookup of a charge, or `UnknownCharge`. -/
def ResourceLedger.charge (ledger : ResourceLedger) (id : ChargeId) :
    Except LedgerError ChargeEntry :=
  match ledger.charges[id]? with
  | none => .error (.unknownCharge id)
  | some entry => .ok entry

/-- `subject_snapshot` (L1673-1704). -/
def ResourceLedger.subjectSnapshot (ledger : ResourceLedger) :
    LedgerSubject → Except LedgerError SubjectSnapshot
  | .reservation id => do return (← ledger.reservation id).snapshot
  | .charge id => do return (← ledger.charge id).snapshot

/-- `validate_entry_binding` (L1892-1932). -/
def validateEntryBinding (entry : SubjectSnapshot) (transition : ResourceLedgerTransition)
    (expectedGeneration : Nat) (exactVector : Option DurableChargeVector) :
    Except LedgerError Unit := do
  refuse (entry.owner != transition.header.owner) .ownerMismatch
  refuse (entry.path != transition.header.quotaPath)
    (.quotaPathMismatch entry.path transition.header.quotaPath)
  refuse (entry.resourceClass != transition.header.resourceClass)
    (.resourceClassMismatch entry.resourceClass transition.header.resourceClass)
  refuse (entry.generation != expectedGeneration)
    (.staleEntryGeneration entry.generation expectedGeneration)
  match exactVector with
  | none => .ok ()
  | some exact => refuse (entry.vector != exact) (.exactVectorMismatch entry.vector exact)

/-- The checked successor of a generation. -/
def nextGeneration (generation : Nat) (error : LedgerError) : Except LedgerError Nat :=
  if generation + 1 < 2 ^ 64 then .ok (generation + 1) else .error error

end FrankenGraph.Resource

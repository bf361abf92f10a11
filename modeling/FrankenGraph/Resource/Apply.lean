import FrankenGraph.Resource.Ledger

/-!
# Applying transitions

`apply` and its six operations (`fgdb-resource/src/ledger.rs`, L1153-1671), as code over the
ledger they change, and runs of calls from a new ledger.
-/

namespace FrankenGraph.Resource

/-- Code over a ledger. -/
abbrev LedgerCode := Effect LedgerError ResourceLedger

variable (allocates : Nat → Bool)

/-- Plan the changes on the ledger as it stands. -/
def planChanges (changes : Changes) : LedgerCode (List (QuotaPath × BucketState)) := do
  let ledger ← get
  Effect.lift (planBucketChanges allocates ledger.buckets changes)

/-- `install_bucket_plan` (L1763-1767). -/
def installPlan (plan : List (QuotaPath × BucketState)) : LedgerCode Unit :=
  modify fun ledger => ledger.installBucketPlan plan

/-- `apply_reserve` (L1368-1405). -/
def applyReserve (transition : ResourceLedgerTransition) (reservationId : ReservationId)
    (vector : DurableChargeVector) (hold : OwnerHold) : LedgerCode Unit := do
  let ledger ← get
  stopIf vector.isZero .zeroVector
  stopIf (ledger.usedReservationIds.contains reservationId)
    (.reservationIdAlreadyUsed reservationId)
  let changes ← Effect.lift (addPathChange ∅ transition.header.quotaPath
    transition.header.resourceClass .add vector)
  let plan ← planChanges allocates changes
  installPlan plan
  modify fun ledger => { ledger with
    reservations := ledger.reservations.insert reservationId
      { id := reservationId
        generation := 0
        owner := transition.header.owner
        path := transition.header.quotaPath
        resourceClass := transition.header.resourceClass
        vector := vector
        hold := hold } }
  modify fun ledger => { ledger with
    usedReservationIds := ledger.usedReservationIds.insert reservationId }

/-- The axis on which a charge exceeds its reservation (L1434-1444). -/
def exceededAxis (charged reserved : DurableChargeVector) : Option DurableChargeAxis :=
  DurableChargeAxis.all.find? fun axis => charged.axis axis > reserved.axis axis

/-- The refusal of a charge over its reservation. -/
def checkCharge (reservationId : ReservationId) (charged reserved : DurableChargeVector) :
    Except LedgerError Unit :=
  match exceededAxis charged reserved with
  | none => .ok ()
  | some axis => .error (.chargeExceedsReservation reservationId axis (reserved.axis axis)
      (charged.axis axis))

/-- `apply_charge` (L1407-1479). The charge takes the place of the whole reservation. -/
def applyCharge (transition : ResourceLedgerTransition) (reservationId : ReservationId)
    (expectedGeneration : Nat) (chargeId : ChargeId) (charged : DurableChargeVector)
    (stableSubjectKey : StableSubjectKey) : LedgerCode Unit := do
  let ledger ← get
  let reservation ← Effect.lift (ledger.reservation reservationId)
  Effect.lift (validateEntryBinding reservation.snapshot transition expectedGeneration none)
  stopIf charged.isZero .zeroVector
  Effect.lift (checkCharge reservationId charged reservation.vector)
  stopIf (ledger.usedChargeIds.contains chargeId) (.chargeIdAlreadyUsed chargeId)
  let changes ← Effect.lift (addPathChange ∅ reservation.path
    reservation.resourceClass .subtract reservation.vector)
  let changes ← Effect.lift (addCommittedPathChange changes reservation.path
    reservation.resourceClass .add charged)
  let plan ← planChanges allocates changes
  installPlan plan
  modify fun ledger => { ledger with reservations := ledger.reservations.erase reservationId }
  modify fun ledger => { ledger with
    charges := ledger.charges.insert chargeId
      { id := chargeId
        generation := 0
        owner := reservation.owner
        path := reservation.path
        resourceClass := reservation.resourceClass
        vector := charged
        stableSubjectKey := stableSubjectKey } }
  modify fun ledger => { ledger with usedChargeIds := ledger.usedChargeIds.insert chargeId }

/-- `remove_subject` (L1706-1715). -/
def ResourceLedger.removeSubject (ledger : ResourceLedger) : LedgerSubject → ResourceLedger
  | .reservation id => { ledger with reservations := ledger.reservations.erase id }
  | .charge id => { ledger with charges := ledger.charges.erase id }

/-- `apply_release` (L1481-1496). -/
def applyRelease (transition : ResourceLedgerTransition) (subject : LedgerSubject)
    (expectedGeneration : Nat) (exactVector : DurableChargeVector) : LedgerCode Unit := do
  let ledger ← get
  let snapshot ← Effect.lift (ledger.subjectSnapshot subject)
  Effect.lift (validateEntryBinding snapshot transition expectedGeneration (some exactVector))
  let changes ← Effect.lift (snapshot.addChange ∅ .subtract)
  let plan ← planChanges allocates changes
  installPlan plan
  modify fun ledger => ledger.removeSubject subject

/-- The checks of the evidence of an expiry (L1523-1545). -/
def checkExpiry (reservation : ReservationEntry) (reservationId : ReservationId)
    (expectedGeneration : Nat) (evidence : ExpiryEvidence) : Except LedgerError Unit := do
  refuse (evidence.reservationId != reservationId)
    (.expiryEvidenceSubjectMismatch reservationId evidence.reservationId)
  refuse (evidence.reservationGeneration != expectedGeneration)
    (.expiryEvidenceGenerationMismatch expectedGeneration evidence.reservationGeneration)
  refuse (evidence.timeClassification != .expired) (.expiryTimeNotExpired reservationId)
  refuse (!evidence.confirmsQuiescence) (.expiryNotQuiescent reservationId)
  refuse (reservation.hold != .none) (.protectedOwnerCannotExpire reservationId reservation.hold)

/-- `apply_expire` (L1498-1556). -/
def applyExpire (transition : ResourceLedgerTransition) (reservationId : ReservationId)
    (expectedGeneration : Nat) (exactVector : DurableChargeVector) (evidence : ExpiryEvidence) :
    LedgerCode Unit := do
  let ledger ← get
  let reservation ← Effect.lift (ledger.reservation reservationId)
  Effect.lift (validateEntryBinding reservation.snapshot transition expectedGeneration
    (some exactVector))
  Effect.lift (checkExpiry reservation reservationId expectedGeneration evidence)
  let changes ← Effect.lift (addPathChange ∅ reservation.path
    reservation.resourceClass .subtract reservation.vector)
  let plan ← planChanges allocates changes
  installPlan plan
  modify fun ledger => { ledger with reservations := ledger.reservations.erase reservationId }

/-- The entry of a subject moved to its target (L1580-1603). -/
def moveSubject (subject : LedgerSubject) (generation : Nat) (targetOwner : ResourceOwnerKey)
    (targetPath : QuotaPath) : LedgerCode Unit := do
  let ledger ← get
  match subject with
  | .reservation id => do
    let entry ← Effect.lift (ledger.reservation id)
    modify fun ledger => { ledger with
      reservations := ledger.reservations.insert id
        { entry with generation, owner := targetOwner, path := targetPath } }
  | .charge id => do
    let entry ← Effect.lift (ledger.charge id)
    modify fun ledger => { ledger with
      charges := ledger.charges.insert id
        { entry with generation, owner := targetOwner, path := targetPath } }

/-- `apply_transfer` (L1558-1605). -/
def applyTransfer (transition : ResourceLedgerTransition) (subject : LedgerSubject)
    (expectedGeneration : Nat) (targetOwner : ResourceOwnerKey) (targetPath : QuotaPath)
    (exactVector : DurableChargeVector) : LedgerCode Unit := do
  let ledger ← get
  let snapshot ← Effect.lift (ledger.subjectSnapshot subject)
  Effect.lift (validateEntryBinding snapshot transition expectedGeneration (some exactVector))
  Effect.lift (validatePolicyOwner ledger.policy snapshot.resourceClass targetOwner)
  stopIf (snapshot.owner == targetOwner && snapshot.path == targetPath) .noopTransfer
  let nextEntryGeneration ← Effect.lift
    (nextGeneration snapshot.generation .entryGenerationOverflow)
  let changes ← Effect.lift (snapshot.addChange ∅ .subtract)
  let changes ← Effect.lift (snapshot.addChangeAt changes targetPath .add)
  let plan ← planChanges allocates changes
  moveSubject subject nextEntryGeneration targetOwner targetPath
  installPlan plan

/-- `apply_adjust` (L1607-1671). -/
def applyAdjust (transition : ResourceLedgerTransition) (chargeId : ChargeId)
    (expectedGeneration : Nat) (beforeVector afterVector : DurableChargeVector)
    (stableSubjectKey : StableSubjectKey) : LedgerCode Unit := do
  let ledger ← get
  let charge ← Effect.lift (ledger.charge chargeId)
  Effect.lift (validateEntryBinding charge.snapshot transition expectedGeneration
    (some beforeVector))
  stopIf (stableSubjectKey != charge.stableSubjectKey)
    (.stableSubjectKeyMismatch chargeId charge.stableSubjectKey stableSubjectKey)
  stopIf afterVector.isZero (.wholeChargeMustUseRelease chargeId)
  stopIf (beforeVector == afterVector) (.noopAdjust chargeId)
  let nextEntryGeneration ← Effect.lift (nextGeneration charge.generation .entryGenerationOverflow)
  let changes ← Effect.lift (addCommittedPathChange ∅ charge.path charge.resourceClass .subtract
    beforeVector)
  let changes ← Effect.lift (addCommittedPathChange changes charge.path charge.resourceClass .add
    afterVector)
  let plan ← planChanges allocates changes
  let ledger ← get
  let entry ← Effect.lift (ledger.charge chargeId)
  modify fun ledger => { ledger with
    charges := ledger.charges.insert chargeId
      { entry with generation := nextEntryGeneration, vector := afterVector } }
  installPlan plan

/-- The operation of a transition and its name in the outcome (L1266-1347). -/
def applyOperation (transition : ResourceLedgerTransition) : LedgerCode AppliedOperation :=
  match transition.operation with
  | .reserve reservationId vector hold => do
    applyReserve allocates transition reservationId vector hold
    return .reserved
  | .charge reservationId expectedReservationGeneration chargeId vector stableSubjectKey => do
    applyCharge allocates transition reservationId expectedReservationGeneration chargeId vector
      stableSubjectKey
    return .charged
  | .release subject expectedGeneration exactVector => do
    applyRelease allocates transition subject expectedGeneration exactVector
    return .released
  | .expire reservationId expectedGeneration exactVector evidence => do
    applyExpire allocates transition reservationId expectedGeneration exactVector evidence
    return .expired
  | .transfer subject expectedGeneration targetOwner targetPath exactConservedVector => do
    applyTransfer allocates transition subject expectedGeneration targetOwner targetPath
      exactConservedVector
    return .transferred
  | .adjust chargeId expectedGeneration beforeVector afterVector stableSubjectKey => do
    applyAdjust allocates transition chargeId expectedGeneration beforeVector afterVector
      stableSubjectKey
    return .adjusted

/-- The checks before the operation (L1231-1265), with the generation it leads to. -/
def admitTransition (ledger : ResourceLedger) (transition : ResourceLedgerTransition) :
    Except LedgerError Nat := do
  let header := transition.header
  refuse (header.expectedLedgerIdentity.role != ledger.identity.role)
    (.wrongAuthorityRole ledger.identity.role header.expectedLedgerIdentity.role)
  match ledgerIdentityMismatch ledger.identity header.expectedLedgerIdentity with
  | some mismatch => .error (.wrongLedgerIdentity mismatch)
  | none => do
    refuse (header.expectedLedgerGeneration != ledger.generation)
      (.staleLedgerGeneration ledger.generation header.expectedLedgerGeneration)
    refuse (!ledger.policy.allows header.resourceClass transition.operation.kind)
      (.operationDisallowedByPolicy header.resourceClass transition.operation.kind)
    validatePolicyOwner ledger.policy header.resourceClass header.owner
    nextGeneration ledger.generation .ledgerGenerationOverflow

/-- A transition under an identity that has not been applied (L1231-1366). -/
def applyNew (transition : ResourceLedgerTransition) : LedgerCode ApplyOutcome := do
  let ledger ← get
  let nextGeneration ← Effect.lift (admitTransition ledger transition)
  let operation ← applyOperation allocates transition
  modify fun ledger => { ledger with generation := nextGeneration }
  let outcome := ⟨nextGeneration, operation, .applied⟩
  modify fun ledger => { ledger with
    appliedTransitions := ledger.appliedTransitions.insert transition.header.transitionId
      ⟨transition, outcome⟩ }
  return outcome

/-- A transition under an identity that has been applied (L1215-1230). -/
def replay (applied : AppliedTransition) (transition : ResourceLedgerTransition) :
    Except LedgerError ApplyOutcome := do
  refuse (applied.transition.bodyDigest != transition.bodyDigest)
    (.idempotencyBodyDrift transition.header.transitionId applied.transition.bodyDigest
      transition.bodyDigest)
  refuse (applied.transition != transition)
    (.idempotencySemanticDrift transition.header.transitionId)
  return { applied.outcome with disposition := .replayed }

/-- `apply` (L1207-1366). -/
def apply (transition : ResourceLedgerTransition) : LedgerCode ApplyOutcome := do
  let ledger ← get
  match ledger.appliedTransitions[transition.header.transitionId]? with
  | some applied => Effect.lift (replay applied transition)
  | none => applyNew allocates transition

/-- `try_new` (L1154-1181). -/
def ResourceLedger.tryNew (identity : ResourceLedgerIdentity) (policy : ResourceLimitPolicy) :
    Except LedgerError ResourceLedger := do
  refuse (identity.limitPolicyEpoch != policy.epoch)
    (.limitPolicyEpochMismatch identity.limitPolicyEpoch policy.epoch)
  return {
    identity := identity
    policy := policy
    generation := 0
    buckets := policy.buckets.map fun _ bucket =>
      .empty bucket.hardLimit bucket.protectedMaintenanceReserve
    reservations := ∅
    charges := ∅
    usedReservationIds := ∅
    usedChargeIds := ∅
    appliedTransitions := ∅ }

end FrankenGraph.Resource

import FrankenGraph.Resource.Conservation

/-!
# Runs of the ledger

Every sequence of calls of `apply` on a new ledger: accounting stays exact, capacity is respected, a
refusal or a replay changes nothing and identities are used once.

Results:
* `apply_cases`: a call is refused, replayed or applied
* `runInv_of_run`: the invariants of every run
* `ledger_conserves_capacity`: what holds after every sequence of calls
-/

namespace FrankenGraph.Resource

open List BTreeMap ResourceLedger Std.ExtTreeMap

/-! ## One call -/

/-- One call of `apply`, with the answers of the allocator during it. -/
structure Call where
  allocates : Nat → Bool
  transition : ResourceLedgerTransition

/-- What a call returns. -/
def ResourceLedger.result (ledger : ResourceLedger) (call : Call) :
    Except LedgerError ApplyOutcome :=
  ((apply call.allocates call.transition).exec ledger).1

/-- The ledger a call leaves. -/
def ResourceLedger.after (ledger : ResourceLedger) (call : Call) : ResourceLedger :=
  ((apply call.allocates call.transition).exec ledger).2

/-- The record of a transition that has been applied. -/
def ResourceLedger.record (ledger : ResourceLedger) (transition : ResourceLedgerTransition) :
    Option AppliedTransition :=
  ledger.appliedTransitions[transition.header.transitionId]?

/-- What `apply` does when it succeeds. -/
def Succeeds (ledger : ResourceLedger) (transition : ResourceLedgerTransition)
    (outcome : ApplyOutcome) (ledger' : ResourceLedger) : Prop :=
  (∃ record, ledger.record transition = some record ∧ record.transition = transition ∧
    outcome = { record.outcome with disposition := .replayed } ∧ ledger' = ledger) ∨
  (ledger.record transition = none ∧ outcome.disposition = .applied ∧
    ∃ middle generation, Step transition.operation ledger middle ∧
      ledger' = { middle with
        generation := generation
        appliedTransitions := middle.appliedTransitions.insert transition.header.transitionId
          ⟨transition, outcome⟩ })

variable {transition : ResourceLedgerTransition}

theorem replay_eq_ok {record : AppliedTransition} {outcome : ApplyOutcome} :
    replay record transition = .ok outcome ↔ record.transition = transition ∧
      outcome = { record.outcome with disposition := .replayed } := by
  unfold replay
  simp only [bind_eq_ok, refuse_eq_ok, bne_eq_false_iff_eq, exists_const, pure, Except.pure,
    Except.ok.injEq]
  constructor
  · rintro ⟨-, rfl, rfl⟩
    exact ⟨rfl, rfl⟩
  · rintro ⟨rfl, rfl⟩
    exact ⟨rfl, rfl, rfl⟩

variable {ledger : ResourceLedger}

theorem applyNew_spec {allocates : Nat → Bool} (hlive : LiveUsed ledger)
    (hnone : ledger.record transition = none) :
    Triple (· = ledger) (applyNew allocates transition) (Succeeds ledger transition) (· = ledger) := by
  unfold applyNew
  refine Triple.bind_get (Triple.bind_lift (fun generation _ => ?_) rfl)
  refine Triple.bind (applyOperation_spec hlive) fun operation => ?_
  intro middle hstep
  exact .inr ⟨hnone, rfl, middle, generation, hstep, rfl⟩

theorem apply_spec {allocates : Nat → Bool} (hlive : LiveUsed ledger) :
    Triple (· = ledger) (apply allocates transition) (Succeeds ledger transition) (· = ledger) := by
  unfold apply
  refine Triple.bind_get ?_
  cases hrecord : ledger.appliedTransitions[transition.header.transitionId]? with
  | none => exact applyNew_spec hlive hrecord
  | some record =>
    refine Triple.lift (fun outcome houtcome s hs => ?_) fun s hs => hs
    obtain ⟨htransition, rfl⟩ := replay_eq_ok.mp houtcome
    exact .inl ⟨record, hrecord, htransition, rfl, hs⟩

/-- A call fails without a trace, or succeeds as a replay or a step. -/
theorem apply_cases (hlive : LiveUsed ledger) (call : Call) :
    (∃ error, ledger.result call = .error error ∧ ledger.after call = ledger) ∨
      ∃ outcome, ledger.result call = .ok outcome ∧
        Succeeds ledger call.transition outcome (ledger.after call) := by
  have hspec := @apply_spec call.transition ledger call.allocates hlive ledger rfl
  unfold ResourceLedger.result ResourceLedger.after
  rcases hexec : (apply call.allocates call.transition).exec ledger with ⟨result, ledger'⟩
  rw [hexec] at hspec
  cases result with
  | error error => exact .inl ⟨error, rfl, hspec⟩
  | ok outcome => exact .inr ⟨outcome, rfl, hspec⟩

/-! ## Runs -/

/-- The ledger after a sequence of calls. -/
def ResourceLedger.run (ledger : ResourceLedger) (calls : List Call) : ResourceLedger :=
  calls.foldl ResourceLedger.after ledger

/-- The transition that a call applies for the first time, with its outcome. -/
def ResourceLedger.appliedBy (ledger : ResourceLedger) (call : Call) :
    List (ResourceLedgerTransition × ApplyOutcome) :=
  match ledger.result call with
  | .ok outcome => if outcome.disposition = .applied then [(call.transition, outcome)] else []
  | .error _ => []

/-- The transitions that a sequence of calls applies, in order. -/
def ResourceLedger.appliedIn (ledger : ResourceLedger) : List Call →
    List (ResourceLedgerTransition × ApplyOutcome)
  | [] => []
  | call :: calls => ledger.appliedBy call ++ (ledger.after call).appliedIn calls

theorem appliedIn_append (ledger : ResourceLedger) (calls : List Call) (call : Call) :
    ledger.appliedIn (calls ++ [call]) =
      ledger.appliedIn calls ++ (ledger.run calls).appliedBy call := by
  induction calls generalizing ledger with
  | nil => simp [appliedIn, run]
  | cons first calls ih =>
    rw [cons_append, appliedIn, appliedIn, ih, append_assoc]
    rfl

/-- The invariant of a ledger together with the transitions applied to it. -/
structure RunInv (ledger : ResourceLedger)
    (applied : List (ResourceLedgerTransition × ApplyOutcome)) : Prop where
  inv : LedgerInv ledger
  recorded : ∀ transition outcome, (transition, outcome) ∈ applied →
    ledger.record transition = some ⟨transition, outcome⟩
  reservedUsed : ∀ transition outcome, (transition, outcome) ∈ applied →
    ∀ id, transition.operation.reservedId = some id → id ∈ ledger.usedReservationIds
  chargedUsed : ∀ transition outcome, (transition, outcome) ∈ applied →
    ∀ id, transition.operation.chargedId = some id → id ∈ ledger.usedChargeIds
  transitionIds : (applied.map fun entry => entry.1.header.transitionId).Nodup
  reservedIds : (applied.filterMap fun entry => entry.1.operation.reservedId).Nodup
  chargedIds : (applied.filterMap fun entry => entry.1.operation.chargedId).Nodup

theorem runInv_of_tryNew {identity : ResourceLedgerIdentity} {policy : ResourceLimitPolicy}
    (h : ResourceLedger.tryNew identity policy = .ok ledger) :
    RunInv ledger [] := by
  obtain ⟨_, -, h⟩ := bind_eq_ok.mp h
  obtain rfl := Except.ok.inj h
  refine ⟨⟨?_, ?_, ?_, ?_⟩, fun _ _ h => absurd h not_mem_nil,
    fun _ _ h => absurd h not_mem_nil, fun _ _ h => absurd h not_mem_nil,
    nodup_nil, nodup_nil, nodup_nil⟩
  · intro path state hstate component resourceClass axis
    rw [Std.ExtTreeMap.getElem?_map, Option.map_eq_some_iff] at hstate
    obtain ⟨bucket, -, rfl⟩ := hstate
    rw [BucketState.held_empty, DurableChargeVector.axis_zero]
    cases component <;>
    · simp only [ResourceLedger.claimed]
      rw [BTreeMap.sumOf_empty]
  · intro path state hstate
    rw [Std.ExtTreeMap.getElem?_map, Option.map_eq_some_iff] at hstate
    obtain ⟨bucket, -, rfl⟩ := hstate
    exact bucket.valid
  · intro id hmem
    exact absurd hmem Std.ExtTreeMap.not_mem_empty
  · intro id hmem
    exact absurd hmem Std.ExtTreeMap.not_mem_empty

/-- A fresh identity is new among those created before. -/
theorem nodup_filterMap_append {α : Type} {created : α → Option (BitVec 256)} {applied : List α}
    {entry : α} (hnodup : (applied.filterMap created).Nodup)
    (hfresh : ∀ id, created entry = some id → ∀ other ∈ applied, created other ≠ some id) :
    ((applied ++ [entry]).filterMap created).Nodup := by
  rw [filterMap_append]
  cases hentry : created entry with
  | none => simpa [hentry] using hnodup
  | some id =>
    rw [show [entry].filterMap created = [id] by simp [hentry], nodup_append]
    refine ⟨hnodup, nodup_singleton id, ?_⟩
    intro a ha b hb hab
    obtain ⟨other, hother, hcreated⟩ := mem_filterMap.mp ha
    rw [hab, mem_singleton.mp hb] at hcreated
    exact hfresh id hentry other hother hcreated

theorem RunInv.call {ledger : ResourceLedger}
    {applied : List (ResourceLedgerTransition × ApplyOutcome)} (h : RunInv ledger applied)
    (call : Call) : RunInv (ledger.after call) (applied ++ ledger.appliedBy call) := by
  rcases apply_cases h.inv.live call with ⟨error, hresult, hafter⟩ | ⟨outcome, hresult, hcases⟩
  · rw [appliedBy, hresult, hafter, append_nil]
    exact h
  rcases hcases with ⟨record, -, -, rfl, hafter⟩ | ⟨hnone, happlied, middle, generation, hstep, hafter⟩
  · rw [appliedBy, hresult, hafter]
    simpa using h
  have hnew : ledger.appliedBy call = [(call.transition, outcome)] := by
    rw [appliedBy, hresult]
    exact if_pos happlied
  have hinv := h.inv.step hstep
  have hrecord : ∀ transition, (ledger.after call).record transition =
      if call.transition.header.transitionId = transition.header.transitionId then
        some ⟨call.transition, outcome⟩ else ledger.record transition := by
    intro transition
    rw [hafter]
    show (middle.appliedTransitions.insert _ _)[_]? = _
    rw [lookup_insert, hstep.records]
    rfl
  have hdistinct : ∀ transition outcome', (transition, outcome') ∈ applied →
      call.transition.header.transitionId ≠ transition.header.transitionId := by
    intro transition outcome' hmem heq
    have hrecorded := h.recorded transition outcome' hmem
    rw [record, ← heq] at hrecorded
    exact absurd (hnone.symm.trans hrecorded) nofun
  rw [hnew]
  have hreserved : ∀ id, id ∈ (ledger.after call).usedReservationIds ↔
      call.transition.operation.reservedId = some id ∨ id ∈ ledger.usedReservationIds := by
    rw [hafter]
    exact hstep.usedReservations
  have hcharged : ∀ id, id ∈ (ledger.after call).usedChargeIds ↔
      call.transition.operation.chargedId = some id ∨ id ∈ ledger.usedChargeIds := by
    rw [hafter]
    exact hstep.usedCharges
  refine ⟨?_, ?_, ?_, ?_, ?_, ?_, ?_⟩
  · rw [hafter]
    exact ⟨hinv.conserved, hinv.valid, hinv.live.reservations, hinv.live.charges⟩
  · intro transition outcome' hmem
    rw [hrecord]
    rcases mem_append.mp hmem with hmem | hmem
    · rw [if_neg (hdistinct transition outcome' hmem)]
      exact h.recorded transition outcome' hmem
    · obtain ⟨rfl, rfl⟩ := Prod.mk.inj (mem_singleton.mp hmem)
      exact if_pos rfl
  · intro transition outcome' hmem id hid
    rw [hreserved]
    rcases mem_append.mp hmem with hmem | hmem
    · exact .inr (h.reservedUsed transition outcome' hmem id hid)
    · obtain ⟨rfl, rfl⟩ := Prod.mk.inj (mem_singleton.mp hmem)
      exact .inl hid
  · intro transition outcome' hmem id hid
    rw [hcharged]
    rcases mem_append.mp hmem with hmem | hmem
    · exact .inr (h.chargedUsed transition outcome' hmem id hid)
    · obtain ⟨rfl, rfl⟩ := Prod.mk.inj (mem_singleton.mp hmem)
      exact .inl hid
  · rw [map_append, nodup_append]
    refine ⟨h.transitionIds, nodup_singleton _, ?_⟩
    intro a ha b hb hab
    obtain ⟨⟨transition, outcome'⟩, hmem, rfl⟩ := mem_map.mp ha
    rw [map_singleton, mem_singleton] at hb
    exact hdistinct transition outcome' hmem (hab.trans hb).symm
  · refine nodup_filterMap_append h.reservedIds ?_
    rintro id hid ⟨transition, outcome'⟩ hmem hother
    exact hstep.freshReservation id hid (h.reservedUsed transition outcome' hmem id hother)
  · refine nodup_filterMap_append h.chargedIds ?_
    rintro id hid ⟨transition, outcome'⟩ hmem hother
    exact hstep.freshCharge id hid (h.chargedUsed transition outcome' hmem id hother)

theorem runInv_of_run (h : RunInv ledger []) (calls : List Call) :
    RunInv (ledger.run calls) (ledger.appliedIn calls) := by
  induction calls using reverseRecOn with
  | nil => exact h
  | append_singleton calls call ih =>
    rw [appliedIn_append, run, foldl_append]
    exact ih.call call

/-- After every sequence of calls, each bucket is valid and holds exactly what the live entries
below it claim, a refused call leaves the ledger unchanged, a transition that was applied replays
with its recorded outcome and no effect, and every identity was created once. -/
theorem ledger_conserves_capacity {identity : ResourceLedgerIdentity}
    {policy : ResourceLimitPolicy} {start : ResourceLedger}
    (hnew : ResourceLedger.tryNew identity policy = .ok start) (calls : List Call) :
    (∀ (path : QuotaPath) (state : BucketState), (start.run calls).buckets[path]? = some state →
      (∀ resourceClass axis, (state.held .reservation resourceClass).axis axis =
          BTreeMap.sumOf (start.run calls).reservations (fun entry =>
            if entry.resourceClass = resourceClass ∧ path ∈ entry.path.ancestorsInclusive then
              entry.vector.axis axis else 0) ∧
        (state.held .committed resourceClass).axis axis =
          BTreeMap.sumOf (start.run calls).charges (fun entry =>
            if entry.resourceClass = resourceClass ∧ path ∈ entry.path.ancestorsInclusive then
              entry.vector.axis axis else 0)) ∧
      state.validate = .ok () ∧
      ∀ axis, state.ordinaryReserved.axis axis + state.ordinaryCommitted.axis axis ≤
          state.hardLimit.axis axis - state.protectedMaintenanceReserve.axis axis ∧
        state.maintenanceReserved.axis axis + state.maintenanceCommitted.axis axis ≤
          state.protectedMaintenanceReserve.axis axis) ∧
    (∀ call error, (start.run calls).result call = .error error →
      (start.run calls).after call = start.run calls) ∧
    (∀ transition outcome, (transition, outcome) ∈ start.appliedIn calls → ∀ allocates,
      (start.run calls).result ⟨allocates, transition⟩ =
        .ok { outcome with disposition := .replayed } ∧
      (start.run calls).after ⟨allocates, transition⟩ = start.run calls) ∧
    ((start.appliedIn calls).map fun entry => entry.1.header.transitionId).Nodup ∧
    ((start.appliedIn calls).filterMap fun entry => entry.1.operation.reservedId).Nodup ∧
    ((start.appliedIn calls).filterMap fun entry => entry.1.operation.chargedId).Nodup := by
  have hrun := runInv_of_run (runInv_of_tryNew hnew) calls
  refine ⟨?_, ?_, ?_, hrun.transitionIds, hrun.reservedIds, hrun.chargedIds⟩
  · intro path state hstate
    have hconserved := hrun.inv.conserved path state hstate
    have hvalid := hrun.inv.valid path state hstate
    exact ⟨fun resourceClass axis => ⟨hconserved .reservation resourceClass axis,
      hconserved .committed resourceClass axis⟩, hvalid,
      fun axis => (BucketState.use_of_validate hvalid axis).2⟩
  · intro call error herror
    rcases apply_cases hrun.inv.live call with ⟨-, -, hafter⟩ | ⟨outcome, hok, -⟩
    · exact hafter
    · exact absurd (herror.symm.trans hok) nofun
  · intro transition outcome hmem allocates
    have hrecorded := hrun.recorded transition outcome hmem
    have hexec : (apply allocates transition).exec (start.run calls) =
        (replay ⟨transition, outcome⟩ transition, start.run calls) := by
      rw [apply, Effect.exec_get_bind, ← ResourceLedger.record, hrecorded]
      rfl
    rw [ResourceLedger.result, ResourceLedger.after, hexec]
    exact ⟨replay_eq_ok.mpr ⟨rfl, rfl⟩, rfl⟩

/-! ### A sample run -/

/-- The path of a tenant. -/
def samplePath : QuotaPath := ⟨[.database 1, .tenant 7], by decide, by decide⟩

/-- Ten units on every axis, two of them for maintenance. -/
def sampleBucket : ResourceBucketPolicy :=
  ⟨⟨10, 10, 10, 10, 10, 10⟩, ⟨2, 2, 2, 2, 2, 2⟩, by decide⟩

def sampleIdentity : ResourceLedgerIdentity := ⟨2, 3, .localRole, 4, 5⟩

def samplePolicy : ResourceLimitPolicy where
  epoch := 5
  buckets := ((∅ : BTreeMap QuotaPath ResourceBucketPolicy).insert (samplePath.ancestor 0)
    sampleBucket).insert samplePath sampleBucket
  classRules := fun _ => some [.reserve, .charge, .release, .expire, .transfer, .adjust]
  registeredMaintenanceClasses := ∅

def sampleStart : ResourceLedger where
  identity := sampleIdentity
  policy := samplePolicy
  generation := 0
  buckets := samplePolicy.buckets.map fun _ bucket =>
    .empty bucket.hardLimit bucket.protectedMaintenanceReserve
  reservations := ∅
  charges := ∅
  usedReservationIds := ∅
  usedChargeIds := ∅
  appliedTransitions := ∅

/-- A call on the sample ledger at some generation. -/
def sampleCall (generation : Nat) (operation : LedgerOperation) : Call where
  allocates := fun _ => true
  transition :=
    { header :=
        { expectedLedgerIdentity := sampleIdentity
          transitionId := BitVec.ofNat 256 generation
          idempotencyKeyDigest := 0
          expectedLedgerGeneration := generation
          owner := .durableObject 3 1
          resourceClass := .ordinary
          quotaPath := samplePath }
      operation := operation
      bodyDigest := BitVec.ofNat 256 generation }

/-- A reservation of four units and a charge of three of them. -/
def sampleCalls : List Call :=
  [sampleCall 0 (.reserve 1 ⟨4, 0, 0, 0, 0, 0⟩ .none),
    sampleCall 1 (.charge 1 0 2 ⟨3, 0, 0, 0, 0, 0⟩ 9)]

/-- The root bucket after the sample run. -/
def sampleState : BucketState :=
  { BucketState.empty sampleBucket.hardLimit sampleBucket.protectedMaintenanceReserve with
    ordinaryCommitted := ⟨3, 0, 0, 0, 0, 0⟩ }

/-- In the sample run, the three units that the charge holds at the tenant are the three units that
the root bucket has committed. -/
theorem ledger_conserves_capacity_sample :
    (sampleStart.run sampleCalls).buckets[samplePath.ancestor 0]? = some sampleState ∧
      BTreeMap.sumOf (sampleStart.run sampleCalls).charges (fun entry =>
        if entry.resourceClass = .ordinary ∧
          samplePath.ancestor 0 ∈ entry.path.ancestorsInclusive then
          entry.vector.axis .canonicalDurableBytes else 0) = 3 ∧
      (sampleStart.appliedIn sampleCalls).length = 2 := by
  have hstate : (sampleStart.run sampleCalls).buckets[samplePath.ancestor 0]? = some sampleState := by
    decide +kernel
  have hcommitted := ((ledger_conserves_capacity
    (show ResourceLedger.tryNew sampleIdentity samplePolicy = .ok sampleStart from rfl)
    sampleCalls).1 _ _ hstate).1 .ordinary .canonicalDurableBytes
  exact ⟨hstate, hcommitted.2.symm, by decide +kernel⟩

end FrankenGraph.Resource

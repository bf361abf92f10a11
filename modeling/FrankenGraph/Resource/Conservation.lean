import FrankenGraph.Resource.Apply

/-!
# The ledger conserves capacity

What a bucket holds is what the live entries below it claim. A transition computes the change of
every bucket from the root to a path before it touches the ledger, so a refusal leaves nothing
behind, and the planned changes match the entries that enter and leave.

Results:
* `amountAt_of_changePath`: a path change is one amount at every bucket above the path
* `installed_of_plan`: a plan moves every bucket by its change, and validates it
* `applyOperation_spec`: what each operation does to buckets, entries and identities
* `LedgerInv.step`: an operation keeps buckets and entries in balance
-/

namespace FrankenGraph.Resource

open DurableChargeVector Std.ExtTreeMap

/-! ## Amounts of a change -/

theorem amount_setAmount (change : BucketChange) (vector : DurableChargeVector)
    (component component' : SubjectComponent) (resourceClass resourceClass' : ResourceClass)
    (direction direction' : ChangeDirection) :
    (change.setAmount vector component resourceClass direction).amount component' resourceClass'
        direction' =
      if component' = component ∧ resourceClass' = resourceClass ∧ direction' = direction then vector
      else change.amount component' resourceClass' direction' := by
  cases component <;> cases component' <;> cases resourceClass <;> cases resourceClass' <;>
    cases direction <;> cases direction' <;> rfl

/-- The amount of one kind that the changes make at a bucket. -/
def amountAt (changes : Changes) (path : QuotaPath) (component : SubjectComponent)
    (resourceClass : ResourceClass) (direction : ChangeDirection) (axis : DurableChargeAxis) : Nat :=
  ((changes.getD path .nothing).amount component resourceClass direction).axis axis

/-- What an entry at `entryPath` claims of the bucket at `path`. -/
def share (path : QuotaPath) (resourceClass : ResourceClass) (axis : DurableChargeAxis)
    (entryPath : QuotaPath) (entryClass : ResourceClass) (vector : DurableChargeVector) : Nat :=
  if entryClass = resourceClass ∧ path ∈ entryPath.ancestorsInclusive then vector.axis axis else 0

section Changes

variable {component component' : SubjectComponent} {resourceClass resourceClass' : ResourceClass}
  {direction direction' : ChangeDirection} {vector : DurableChargeVector} {changes next : Changes}
  {path bucket : QuotaPath} {axis : DurableChargeAxis}

theorem amountAt_empty : amountAt ∅ path component resourceClass direction axis = 0 := by
  rw [amountAt, getD_eq_getD_getElem?, getElem?_empty]
  cases component <;> cases resourceClass <;> cases direction <;>
    exact axis_zero axis

theorem amountAt_of_addChange
    (h : addChange component resourceClass direction vector changes path = .ok next) :
    amountAt next bucket component' resourceClass' direction' axis =
      amountAt changes bucket component' resourceClass' direction' axis +
        if bucket = path ∧ component' = component ∧ resourceClass' = resourceClass ∧
          direction' = direction then vector.axis axis else 0 := by
  obtain ⟨target, htarget, h⟩ := bind_eq_ok.mp h
  obtain rfl := Except.ok.inj h
  have hsum := axis_of_checkedAdd (mapError_ok_iff.mp htarget) axis
  unfold amountAt
  rw [getD_eq_getD_getElem?, BTreeMap.lookup_insert]
  by_cases hbucket : path = bucket
  · subst hbucket
    rw [if_pos rfl, Option.getD_some, amount_setAmount]
    by_cases hkind : component' = component ∧ resourceClass' = resourceClass ∧
        direction' = direction
    · obtain ⟨rfl, rfl, rfl⟩ := hkind
      simp only [and_self, if_true, hsum]
    · rw [if_neg hkind, if_neg (fun h => hkind h.2), Nat.add_zero]
  · rw [if_neg hbucket, if_neg (fun h => hbucket h.1.symm), Nat.add_zero, getD_eq_getD_getElem?]

theorem amountAt_of_foldlM_addChange {paths : List QuotaPath}
    (h : paths.foldlM (addChange component resourceClass direction vector) changes = .ok next) :
    amountAt next bucket component' resourceClass' direction' axis =
      amountAt changes bucket component' resourceClass' direction' axis +
        paths.count bucket * if component' = component ∧ resourceClass' = resourceClass ∧
          direction' = direction then vector.axis axis else 0 := by
  induction paths generalizing changes with
  | nil =>
    obtain rfl := Except.ok.inj h
    simp
  | cons path paths ih =>
    rw [List.foldlM_cons] at h
    obtain ⟨middle, hmiddle, hrest⟩ := bind_eq_ok.mp h
    rw [ih hrest, amountAt_of_addChange hmiddle, List.count_cons]
    by_cases hbucket : bucket = path
    · subst hbucket
      simp only [true_and, beq_self_eq_true, if_true]
      ring
    · have hbeq : (path == bucket) = false := beq_eq_false_iff_ne.mpr (Ne.symm hbucket)
      simp [hbucket, hbeq]

theorem amountAt_of_changePath
    (h : changePath component changes path resourceClass direction vector = .ok next) :
    amountAt next bucket component' resourceClass' direction' axis =
      amountAt changes bucket component' resourceClass' direction' axis +
        if component' = component ∧ direction' = direction then
          share bucket resourceClass' axis path resourceClass vector else 0 := by
  rw [amountAt_of_foldlM_addChange h, List.Nodup.count path.nodup_ancestorsInclusive]
  unfold share
  by_cases hclass : resourceClass' = resourceClass
  · subst hclass
    split_ifs <;> simp_all
  · simp [hclass, Ne.symm hclass]

end Changes

/-! ## Plans -/

/-- Every bucket with a change moves by it and is validated; every other bucket stays. -/
def Installed (buckets : BTreeMap QuotaPath BucketState) (changes : Changes)
    (buckets' : BTreeMap QuotaPath BucketState) : Prop :=
  ∀ path : QuotaPath, (changes[path]? = none → buckets'[path]? = buckets[path]?) ∧
    ∀ change : BucketChange, changes[path]? = some change → ∃ state state' : BucketState,
      buckets[path]? = some state ∧ buckets'[path]? = some state' ∧ state'.validate = .ok () ∧
      ∀ component resourceClass axis,
        (state'.held component resourceClass).axis axis +
            (change.amount component resourceClass .subtract).axis axis =
          (state.held component resourceClass).axis axis +
            (change.amount component resourceClass .add).axis axis

theorem axis_of_moved {vector subtracted added result : DurableChargeVector}
    (h : moved vector subtracted added = .ok result) (axis : DurableChargeAxis) :
    result.axis axis + subtracted.axis axis = vector.axis axis + added.axis axis := by
  obtain ⟨middle, hmiddle, hresult⟩ := bind_eq_ok.mp h
  have hsub := axis_of_checkedSub (mapError_ok_iff.mp hmiddle) axis
  have hadd := axis_of_checkedAdd (mapError_ok_iff.mp hresult) axis
  omega

variable {buckets : BTreeMap QuotaPath BucketState}

theorem planBucket_eq_ok {path : QuotaPath} {change : BucketChange} {planned : BucketState}
    (h : planBucket buckets path change = .ok planned) :
    ∃ state, buckets[path]? = some state ∧ planned.validate = .ok () ∧
      ∀ component resourceClass axis, (planned.held component resourceClass).axis axis +
            (change.amount component resourceClass .subtract).axis axis =
          (state.held component resourceClass).axis axis +
            (change.amount component resourceClass .add).axis axis := by
  unfold planBucket at h
  split at h
  · cases h
  · rename_i state hstate
    simp only [bind_eq_ok] at h
    obtain ⟨ordinaryReserved, hor, maintenanceReserved, hmr, ordinaryCommitted, hoc,
      maintenanceCommitted, hmc, _, hvalid, h⟩ := h
    obtain rfl := Except.ok.inj h
    refine ⟨state, hstate, mapError_ok_iff.mp hvalid, ?_⟩
    intro component resourceClass axis
    cases component <;> cases resourceClass
    · exact axis_of_moved hor axis
    · exact axis_of_moved hmr axis
    · exact axis_of_moved hoc axis
    · exact axis_of_moved hmc axis

/-- The plan lists one planned state for every change, in the order of the paths. -/
theorem forall₂_of_plan {allocates : Nat → Bool} {changes : Changes}
    {plan : List (QuotaPath × BucketState)}
    (h : planBucketChanges allocates buckets changes = .ok plan) :
    List.Forall₂ (fun entry planned => planned.1 = entry.1 ∧
      planBucket buckets entry.1 entry.2 = .ok planned.2) changes.toList plan := by
  obtain ⟨_, -, h⟩ := bind_eq_ok.mp h
  refine (mapM_eq_ok.mp h).imp ?_
  intro entry planned hentry
  obtain ⟨state, hstate, hplanned⟩ := bind_eq_ok.mp hentry
  obtain rfl := Except.ok.inj hplanned
  exact ⟨rfl, hstate⟩

theorem installed_of_plan {allocates : Nat → Bool} {changes : Changes}
    {plan : List (QuotaPath × BucketState)}
    (h : planBucketChanges allocates buckets changes = .ok plan) :
    Installed buckets changes (buckets.insertMany plan) := by
  have hplan := forall₂_of_plan h
  have hkeys : plan.map Prod.fst = changes.toList.map Prod.fst :=
    (map_eq_map_of_forall₂ (hplan.imp fun _ _ hentry => hentry.1.symm)).symm
  have hdistinct : (plan.map Prod.fst).Nodup := by
    rw [hkeys]
    exact BTreeMap.nodup_keys changes
  intro path
  refine ⟨fun hnone => ?_, fun change hchange => ?_⟩
  · refine (@BTreeMap.lookup_insertMany _ _ _ _ _ _ buckets path
      (.empty .zero .zero) _ hdistinct).2 fun hmem => ?_
    rw [hkeys] at hmem
    obtain ⟨⟨_, change⟩, hentry, rfl⟩ := List.mem_map.mp hmem
    rw [mem_toList_iff_getElem?_eq_some.mp hentry] at hnone
    cases hnone
  · have hentry := mem_toList_iff_getElem?_eq_some.mpr hchange
    obtain ⟨⟨_, planned⟩, hmem, rfl, hplanned⟩ := exists_of_forall₂ hplan hentry
    obtain ⟨state, hstate, hvalid, hmoved⟩ := planBucket_eq_ok hplanned
    exact ⟨state, planned, hstate, (BTreeMap.lookup_insertMany hdistinct).1 hmem, hvalid, hmoved⟩

/-! ## What an operation does -/

/-- What the live entries of one component and class below a bucket claim of it. -/
def ResourceLedger.claimed (ledger : ResourceLedger) :
    SubjectComponent → ResourceClass → QuotaPath → DurableChargeAxis → Nat
  | .reservation, resourceClass, path, axis => BTreeMap.sumOf ledger.reservations fun entry =>
      share path resourceClass axis entry.path entry.resourceClass entry.vector
  | .committed, resourceClass, path, axis => BTreeMap.sumOf ledger.charges fun entry =>
      share path resourceClass axis entry.path entry.resourceClass entry.vector

/-- The reservation identity that an operation creates. -/
def LedgerOperation.reservedId : LedgerOperation → Option ReservationId
  | .reserve reservationId _ _ => some reservationId
  | _ => none

/-- The charge identity that an operation creates. -/
def LedgerOperation.chargedId : LedgerOperation → Option ChargeId
  | .charge _ _ chargeId _ _ => some chargeId
  | _ => none

/-- An operation from `ledger` to `ledger'`: the buckets move as the entries do, and identities are
created once. -/
structure Step (operation : LedgerOperation) (ledger ledger' : ResourceLedger) : Prop where
  balance : ∃ changes, Installed ledger.buckets changes ledger'.buckets ∧
    ∀ component resourceClass path axis,
      ledger'.claimed component resourceClass path axis +
          amountAt changes path component resourceClass .subtract axis =
        ledger.claimed component resourceClass path axis +
          amountAt changes path component resourceClass .add axis
  freshReservation : ∀ id, operation.reservedId = some id → id ∉ ledger.usedReservationIds
  freshCharge : ∀ id, operation.chargedId = some id → id ∉ ledger.usedChargeIds
  usedReservations : ∀ id, id ∈ ledger'.usedReservationIds ↔
    operation.reservedId = some id ∨ id ∈ ledger.usedReservationIds
  usedCharges : ∀ id, id ∈ ledger'.usedChargeIds ↔
    operation.chargedId = some id ∨ id ∈ ledger.usedChargeIds
  liveReservations : ∀ id, id ∈ ledger'.reservations →
    operation.reservedId = some id ∨ id ∈ ledger.reservations
  liveCharges : ∀ id, id ∈ ledger'.charges →
    operation.chargedId = some id ∨ id ∈ ledger.charges
  records : ledger'.appliedTransitions = ledger.appliedTransitions

/-- Live entries have used identities. -/
structure LiveUsed (ledger : ResourceLedger) : Prop where
  reservations : ∀ id, id ∈ ledger.reservations → id ∈ ledger.usedReservationIds
  charges : ∀ id, id ∈ ledger.charges → id ∈ ledger.usedChargeIds

section Operations

open ResourceLedger (claimed installBucketPlan removeSubject)
open Triple (bind_get bind_lift bind_stopIf bind_modify)

variable {allocates : Nat → Bool} {ledger : ResourceLedger} {transition : ResourceLedgerTransition}

/-- The code makes a step of the operation, or leaves the ledger as it was. -/
def Steps (ledger : ResourceLedger) (operation : LedgerOperation) {α : Type}
    (code : LedgerCode α) : Prop :=
  Triple (· = ledger) code (fun _ ledger' => Step operation ledger ledger') (· = ledger)

theorem planChanges_spec {changes : Changes} {α : Type}
    {next : List (QuotaPath × BucketState) → LedgerCode α} {Q : α → ResourceLedger → Prop}
    (h : ∀ plan, Installed ledger.buckets changes (ledger.buckets.insertMany plan) →
      Triple (· = ledger) (next plan) Q (· = ledger)) :
    Triple (· = ledger) (planChanges allocates changes >>= next) Q (· = ledger) := by
  refine Triple.bind (R := fun plan s =>
    Installed ledger.buckets changes (ledger.buckets.insertMany plan) ∧ s = ledger) ?_ ?_
  · refine bind_get (Triple.lift (fun plan hplan s hs => ⟨installed_of_plan hplan, hs⟩) ?_)
    exact fun s hs => hs
  · rintro plan s ⟨hplan, hs⟩
    exact h plan hplan s hs

variable {id : BitVec 256}

theorem not_mem_of_unused {ids : BTreeSet (BitVec 256)}
    (h : ids.contains id = false) : id ∉ ids := by
  rw [← Std.ExtTreeSet.contains_iff_mem, h]
  exact Bool.false_ne_true

variable {other : BitVec 256}

theorem mem_insert_used {ids : BTreeSet (BitVec 256)} :
    other ∈ ids.insert id ↔ some id = some other ∨ other ∈ ids := by
  rw [Std.ExtTreeSet.mem_insert, Std.LawfulEqOrd.compare_eq_iff_eq, Option.some.injEq]

variable {ν : Type} {entries : BTreeMap (BitVec 256) ν}

theorem mem_insert_live {entry : ν}
    (h : other ∈ entries.insert id entry) : some id = some other ∨ other ∈ entries := by
  rwa [mem_insert, Std.LawfulEqOrd.compare_eq_iff_eq, ← Option.some.injEq] at h

theorem mem_of_mem_insert {entry entry' : ν} (hentry : entries[id]? = some entry)
    (h : other ∈ entries.insert id entry') : other ∈ entries := by
  rcases mem_insert_live h with hid | hmem
  · rw [← Option.some.inj hid]
    exact BTreeMap.mem_iff_lookup.mpr ⟨_, hentry⟩
  · exact hmem

theorem mem_of_mem_erase (h : other ∈ entries.erase id) : other ∈ entries :=
  (mem_erase.mp h).2

theorem sumOf_erase_some {entry : ν} (h : entries[id]? = some entry) (f : ν → Nat) :
    BTreeMap.sumOf (entries.erase id) f + f entry = BTreeMap.sumOf entries f := by
  simpa [h] using @BTreeMap.sumOf_erase_add _ _ _ _ _ _ entries id f

theorem sumOf_insert_some {entry entry' : ν} (h : entries[id]? = some entry) (f : ν → Nat) :
    BTreeMap.sumOf (entries.insert id entry') f + f entry = BTreeMap.sumOf entries f + f entry' := by
  simpa [h] using @BTreeMap.sumOf_insert_add _ _ _ _ _ _ entries id entry' f

theorem sumOf_insert_none {entry : ν} (h : entries[id]? = none) (f : ν → Nat) :
    BTreeMap.sumOf (entries.insert id entry) f = BTreeMap.sumOf entries f + f entry := by
  simpa [h] using @BTreeMap.sumOf_insert_add _ _ _ _ _ _ entries id entry f

theorem lookup_of_not_mem (h : id ∉ entries) : entries[id]? = none := by
  by_contra hsome
  exact h (mem_iff_isSome_getElem?.mpr (Option.isSome_iff_ne_none.mpr hsome))

theorem reservation_eq_ok {id : ReservationId} {entry : ReservationEntry}
    (h : ledger.reservation id = .ok entry) : ledger.reservations[id]? = some entry := by
  unfold ResourceLedger.reservation at h
  split at h
  · cases h
  · rename_i found hfound
    rw [hfound, Except.ok.inj h]

theorem charge_eq_ok {id : ChargeId} {entry : ChargeEntry}
    (h : ledger.charge id = .ok entry) : ledger.charges[id]? = some entry := by
  unfold ResourceLedger.charge at h
  split at h
  · cases h
  · rename_i found hfound
    rw [hfound, Except.ok.inj h]

theorem applyReserve_spec (hlive : LiveUsed ledger) (reservationId : ReservationId)
    (vector : DurableChargeVector) (hold : OwnerHold) :
    Steps ledger (.reserve reservationId vector hold)
      (applyReserve allocates transition reservationId vector hold) := by
  unfold Steps applyReserve
  refine bind_get (bind_stopIf (fun _ => bind_stopIf (fun hunused => ?_) rfl) rfl)
  refine bind_lift (fun changes hchanges => planChanges_spec fun plan hplan => ?_) rfl
  refine bind_modify (bind_modify ?_)
  rintro _ rfl
  have hfresh := not_mem_of_unused hunused
  have hnone := lookup_of_not_mem fun hmem => hfresh (hlive.reservations _ hmem)
  refine ⟨⟨changes, hplan, ?_⟩, ?_, nofun, fun id => mem_insert_used, 
    fun _ => (or_iff_right nofun).symm, fun id => mem_insert_live, fun id hmem => .inr hmem, rfl⟩
  · intro component resourceClass path axis
    simp only [amountAt_of_changePath hchanges, amountAt_empty]
    cases component with
    | reservation => simp [claimed, installBucketPlan, sumOf_insert_none hnone]
    | committed => simp [claimed, installBucketPlan]
  · intro id hid
    rwa [← Option.some.inj hid]

theorem applyCharge_spec (hlive : LiveUsed ledger) (reservationId : ReservationId)
    (expectedGeneration : Nat) (chargeId : ChargeId) (charged : DurableChargeVector)
    (stableSubjectKey : StableSubjectKey) :
    Steps ledger (.charge reservationId expectedGeneration chargeId charged stableSubjectKey)
      (applyCharge allocates transition reservationId expectedGeneration chargeId charged
        stableSubjectKey) := by
  unfold Steps applyCharge
  refine bind_get (bind_lift (fun reservation hreservation => ?_) rfl)
  refine bind_lift (fun _ _ => bind_stopIf (fun _ => ?_) rfl) rfl
  refine bind_lift (fun _ _ => bind_stopIf (fun hunused => ?_) rfl) rfl
  refine bind_lift (fun freed hfreed => bind_lift (fun changes hchanges => ?_) rfl) rfl
  refine planChanges_spec fun plan hplan => ?_
  refine bind_modify (bind_modify (bind_modify ?_))
  rintro _ rfl
  have hentry := reservation_eq_ok hreservation
  have hfresh := not_mem_of_unused hunused
  have hnone := lookup_of_not_mem fun hmem => hfresh (hlive.charges _ hmem)
  refine ⟨⟨changes, hplan, ?_⟩, nofun, ?_, fun _ => (or_iff_right nofun).symm, fun id => mem_insert_used,
    fun id hmem => .inr (mem_of_mem_erase hmem), fun id => mem_insert_live, rfl⟩
  · intro component resourceClass path axis
    simp only [amountAt_of_changePath hchanges, amountAt_of_changePath hfreed, amountAt_empty]
    cases component with
    | reservation => simp [claimed, installBucketPlan, sumOf_erase_some hentry]
    | committed => simp [claimed, installBucketPlan, sumOf_insert_none hnone]
  · intro id hid
    rwa [← Option.some.inj hid]

theorem applyRelease_spec (subject : LedgerSubject) (expectedGeneration : Nat)
    (exactVector : DurableChargeVector) :
    Steps ledger (.release subject expectedGeneration exactVector)
      (applyRelease allocates transition subject expectedGeneration exactVector) := by
  unfold Steps applyRelease
  refine bind_get (bind_lift (fun snapshot hsnapshot => ?_) rfl)
  refine bind_lift (fun _ _ => bind_lift (fun changes hchanges => ?_) rfl) rfl
  refine planChanges_spec fun plan hplan => ?_
  refine bind_modify ?_
  rintro _ rfl
  cases subject with
  | reservation id =>
    obtain ⟨entry, hentry, hsnapshot⟩ := bind_eq_ok.mp hsnapshot
    obtain rfl := Except.ok.inj hsnapshot
    have hentry := reservation_eq_ok hentry
    refine ⟨⟨changes, hplan, ?_⟩, nofun, nofun, fun _ => (or_iff_right nofun).symm,
      fun _ => (or_iff_right nofun).symm,
      fun id hmem => .inr (mem_of_mem_erase hmem), fun id hmem => .inr hmem, rfl⟩
    intro component resourceClass path axis
    simp only [amountAt_of_changePath hchanges, amountAt_empty]
    cases component with
    | reservation =>
      simp [claimed, installBucketPlan, removeSubject, ReservationEntry.snapshot, sumOf_erase_some hentry]
    | committed =>
      simp [claimed, installBucketPlan, removeSubject, ReservationEntry.snapshot]
  | charge id =>
    obtain ⟨entry, hentry, hsnapshot⟩ := bind_eq_ok.mp hsnapshot
    obtain rfl := Except.ok.inj hsnapshot
    have hentry := charge_eq_ok hentry
    refine ⟨⟨changes, hplan, ?_⟩, nofun, nofun, fun _ => (or_iff_right nofun).symm,
      fun _ => (or_iff_right nofun).symm,
      fun id hmem => .inr hmem, fun id hmem => .inr (mem_of_mem_erase hmem), rfl⟩
    intro component resourceClass path axis
    simp only [amountAt_of_changePath hchanges, amountAt_empty]
    cases component with
    | reservation => simp [claimed, installBucketPlan, removeSubject, ChargeEntry.snapshot]
    | committed =>
      simp [claimed, installBucketPlan, removeSubject, ChargeEntry.snapshot, sumOf_erase_some hentry]

theorem applyExpire_spec (reservationId : ReservationId) (expectedGeneration : Nat)
    (exactVector : DurableChargeVector) (evidence : ExpiryEvidence) :
    Steps ledger (.expire reservationId expectedGeneration exactVector evidence)
      (applyExpire allocates transition reservationId expectedGeneration exactVector evidence) := by
  unfold Steps applyExpire
  refine bind_get (bind_lift (fun reservation hreservation => ?_) rfl)
  refine bind_lift (fun _ _ => bind_lift (fun _ _ => ?_) rfl) rfl
  refine bind_lift (fun changes hchanges => planChanges_spec fun plan hplan => ?_) rfl
  refine bind_modify ?_
  rintro _ rfl
  have hentry := reservation_eq_ok hreservation
  refine ⟨⟨changes, hplan, ?_⟩, nofun, nofun, fun _ => (or_iff_right nofun).symm,
    fun _ => (or_iff_right nofun).symm, fun id hmem => .inr (mem_of_mem_erase hmem),
    fun id hmem => .inr hmem, rfl⟩
  intro component resourceClass path axis
  simp only [amountAt_of_changePath hchanges, amountAt_empty]
  cases component with
  | reservation => simp [claimed, installBucketPlan, sumOf_erase_some hentry]
  | committed => simp [claimed, installBucketPlan]

theorem applyTransfer_spec (subject : LedgerSubject) (expectedGeneration : Nat)
    (targetOwner : ResourceOwnerKey) (targetPath : QuotaPath) (exactVector : DurableChargeVector) :
    Steps ledger (.transfer subject expectedGeneration targetOwner targetPath exactVector)
      (applyTransfer allocates transition subject expectedGeneration targetOwner targetPath
        exactVector) := by
  unfold Steps applyTransfer
  refine bind_get (bind_lift (fun snapshot hsnapshot => ?_) rfl)
  refine bind_lift (fun _ _ => bind_lift (fun _ _ => ?_) rfl) rfl
  refine bind_stopIf (fun _ => bind_lift (fun generation _ => ?_) rfl) rfl
  refine bind_lift (fun freed hfreed => bind_lift (fun changes hchanges => ?_) rfl) rfl
  refine planChanges_spec fun plan hplan => ?_
  unfold moveSubject
  cases subject with
  | reservation id =>
    obtain ⟨entry, hentry, hsnapshot⟩ := bind_eq_ok.mp hsnapshot
    obtain rfl := Except.ok.inj hsnapshot
    simp only [bind_assoc]
    refine bind_get (bind_lift (fun found hfound => bind_modify ?_) rfl)
    rintro _ rfl
    obtain rfl := Except.ok.inj (hentry.symm.trans hfound)
    have hentry := reservation_eq_ok hentry
    refine ⟨⟨changes, hplan, ?_⟩, nofun, nofun, fun _ => (or_iff_right nofun).symm,
      fun _ => (or_iff_right nofun).symm, ?_, fun id hmem => .inr hmem, rfl⟩
    · intro component resourceClass path axis
      simp only [amountAt_of_changePath hchanges, amountAt_of_changePath hfreed,
        amountAt_empty]
      cases component with
      | reservation =>
        simp [claimed, installBucketPlan, ReservationEntry.snapshot, sumOf_insert_some hentry]
      | committed =>
        simp [claimed, installBucketPlan, ReservationEntry.snapshot]
    · exact fun id hmem => .inr (mem_of_mem_insert hentry hmem)
  | charge id =>
    obtain ⟨entry, hentry, hsnapshot⟩ := bind_eq_ok.mp hsnapshot
    obtain rfl := Except.ok.inj hsnapshot
    simp only [bind_assoc]
    refine bind_get (bind_lift (fun found hfound => bind_modify ?_) rfl)
    rintro _ rfl
    obtain rfl := Except.ok.inj (hentry.symm.trans hfound)
    have hentry := charge_eq_ok hentry
    refine ⟨⟨changes, hplan, ?_⟩, nofun, nofun, fun _ => (or_iff_right nofun).symm,
      fun _ => (or_iff_right nofun).symm, fun id hmem => .inr hmem, ?_, rfl⟩
    · intro component resourceClass path axis
      simp only [amountAt_of_changePath hchanges, amountAt_of_changePath hfreed,
        amountAt_empty]
      cases component with
      | reservation => simp [claimed, installBucketPlan, ChargeEntry.snapshot]
      | committed =>
        simp [claimed, installBucketPlan, ChargeEntry.snapshot, sumOf_insert_some hentry]
    · exact fun id hmem => .inr (mem_of_mem_insert hentry hmem)

theorem applyAdjust_spec (chargeId : ChargeId) (expectedGeneration : Nat)
    (beforeVector afterVector : DurableChargeVector) (stableSubjectKey : StableSubjectKey) :
    Steps ledger (.adjust chargeId expectedGeneration beforeVector afterVector stableSubjectKey)
      (applyAdjust allocates transition chargeId expectedGeneration beforeVector afterVector
        stableSubjectKey) := by
  unfold Steps applyAdjust
  refine bind_get (bind_lift (fun charge hcharge => ?_) rfl)
  refine bind_lift (fun _ hbinding => bind_stopIf (fun _ => ?_) rfl) rfl
  refine bind_stopIf (fun _ => bind_stopIf (fun _ => ?_) rfl) rfl
  refine bind_lift (fun generation _ => bind_lift (fun freed hfreed => ?_) rfl) rfl
  refine bind_lift (fun changes hchanges => planChanges_spec fun plan hplan => ?_) rfl
  refine bind_get (bind_lift (fun found hfound => bind_modify ?_) rfl)
  rintro _ rfl
  obtain rfl := Except.ok.inj (hcharge.symm.trans hfound)
  have hentry := charge_eq_ok hcharge
  -- the vector that leaves the bucket is the one the charge holds
  have hvector : charge.vector = beforeVector := by
    obtain ⟨_, -, hbinding⟩ := bind_eq_ok.mp hbinding
    obtain ⟨_, -, hbinding⟩ := bind_eq_ok.mp hbinding
    obtain ⟨_, -, hbinding⟩ := bind_eq_ok.mp hbinding
    obtain ⟨_, -, hbinding⟩ := bind_eq_ok.mp hbinding
    simpa [ChargeEntry.snapshot] using hbinding
  subst hvector
  refine ⟨⟨changes, hplan, ?_⟩, nofun, nofun, fun _ => (or_iff_right nofun).symm,
    fun _ => (or_iff_right nofun).symm, fun id hmem => .inr hmem, ?_, rfl⟩
  · intro component resourceClass path axis
    simp only [amountAt_of_changePath hchanges, amountAt_of_changePath hfreed, amountAt_empty]
    cases component with
    | reservation => simp [claimed, installBucketPlan]
    | committed => simp [claimed, installBucketPlan, sumOf_insert_some hentry]
  · exact fun id hmem => .inr (mem_of_mem_insert hentry hmem)

/-- Every operation that is not refused is a step; a refused one leaves the ledger as it was. -/
theorem applyOperation_spec (hlive : LiveUsed ledger) :
    Steps ledger transition.operation (applyOperation allocates transition) := by
  unfold Steps applyOperation
  cases transition.operation with
  | reserve reservationId vector hold =>
    exact Triple.bind (applyReserve_spec hlive _ _ _) fun _ => Triple.pure fun _ h => h
  | charge reservationId generation chargeId vector key =>
    exact Triple.bind (applyCharge_spec hlive _ _ _ _ _) fun _ => Triple.pure fun _ h => h
  | release subject generation vector =>
    exact Triple.bind (applyRelease_spec _ _ _) fun _ => Triple.pure fun _ h => h
  | expire reservationId generation vector evidence =>
    exact Triple.bind (applyExpire_spec _ _ _ _) fun _ => Triple.pure fun _ h => h
  | transfer subject generation owner path vector =>
    exact Triple.bind (applyTransfer_spec _ _ _ _ _) fun _ => Triple.pure fun _ h => h
  | adjust chargeId generation before after key =>
    exact Triple.bind (applyAdjust_spec _ _ _ _ _) fun _ => Triple.pure fun _ h => h

end Operations

/-! ## Balance -/

/-- Every bucket is valid and holds what the live entries claim of it. -/
structure LedgerInv (ledger : ResourceLedger) : Prop where
  conserved : ∀ (path : QuotaPath) (state : BucketState), ledger.buckets[path]? = some state →
    ∀ component resourceClass axis, (state.held component resourceClass).axis axis =
      ledger.claimed component resourceClass path axis
  valid : ∀ (path : QuotaPath) (state : BucketState), ledger.buckets[path]? = some state →
    state.validate = .ok ()
  live : LiveUsed ledger

theorem LedgerInv.step {operation : LedgerOperation} {ledger ledger' : ResourceLedger}
    (hinv : LedgerInv ledger) (hstep : Step operation ledger ledger') : LedgerInv ledger' := by
  obtain ⟨changes, hinstalled, hbalance⟩ := hstep.balance
  refine ⟨?_, ?_, ?_, ?_⟩
  · intro path state' hstate' component resourceClass axis
    have hclaimed := hbalance component resourceClass path axis
    obtain ⟨hsame, hmoved⟩ := hinstalled path
    simp only [amountAt, getD_eq_getD_getElem?] at hclaimed
    cases hchange : changes[path]? with
    | none =>
      rw [hsame hchange] at hstate'
      have hheld := hinv.conserved path state' hstate' component resourceClass axis
      have hnothing : ∀ direction, ((BucketChange.nothing.amount component resourceClass
          direction).axis axis) = 0 := by
        intro direction
        cases component <;> cases resourceClass <;> cases direction <;>
          exact axis_zero axis
      rw [hchange, Option.getD_none, hnothing, hnothing] at hclaimed
      omega
    | some change =>
      obtain ⟨state, state'', hstate, hstate'', -, haxis⟩ := hmoved change hchange
      obtain rfl := Option.some.inj (hstate'.symm.trans hstate'')
      have hheld := hinv.conserved path state hstate component resourceClass axis
      have := haxis component resourceClass axis
      rw [hchange, Option.getD_some] at hclaimed
      omega
  · intro path state' hstate'
    obtain ⟨hsame, hmoved⟩ := hinstalled path
    cases hchange : changes[path]? with
    | none => exact hinv.valid path state' (hsame hchange ▸ hstate')
    | some change =>
      obtain ⟨-, state'', -, hstate'', hvalid, -⟩ := hmoved change hchange
      obtain rfl := Option.some.inj (hstate'.symm.trans hstate'')
      exact hvalid
  · intro id hmem
    rw [hstep.usedReservations]
    exact (hstep.liveReservations id hmem).imp_right (hinv.live.reservations id)
  · intro id hmem
    rw [hstep.usedCharges]
    exact (hstep.liveCharges id hmem).imp_right (hinv.live.charges id)

end FrankenGraph.Resource

import FrankenGraph.Library.Fallible

/-!
# Durable charges and quota buckets

The six-axis charge vector and the state of one quota bucket of `fgdb-resource/src/ledger.rs`
(L20-197 and 425-658). Amounts are 64-bit words in the source and natural numbers here; every
addition and subtraction checks its range as the source does.

Results:
* `DurableChargeVector.axis_of_checkedAdd`, `axis_of_checkedSub`: checked arithmetic is exact
* `BucketState.use_of_validate`: what a valid bucket satisfies on every axis
-/

namespace FrankenGraph.Resource

/-! ## Vectors -/

/-- `DurableChargeAxis` (L20-27). -/
inductive DurableChargeAxis where
  | canonicalDurableBytes
  | retainedHistoryBytes
  | branchCount
  | indexCount
  | viewCount
  | subscriptionCount
  deriving DecidableEq, Repr

/-- `DurableChargeAxis::ALL` (L30-37). -/
def DurableChargeAxis.all : List DurableChargeAxis :=
  [.canonicalDurableBytes, .retainedHistoryBytes, .branchCount, .indexCount, .viewCount,
    .subscriptionCount]

@[simp]
theorem DurableChargeAxis.mem_all (axis : DurableChargeAxis) : axis ∈ all := by
  cases axis <;> decide

/-- `DurableChargeVector` (L56-63). -/
structure DurableChargeVector where
  canonicalDurableBytes : Nat
  retainedHistoryBytes : Nat
  branchCount : Nat
  indexCount : Nat
  viewCount : Nat
  subscriptionCount : Nat
  deriving DecidableEq, Repr

/-- `DurableVectorError` (L186-197). -/
inductive DurableVectorError where
  | overflow (axis : DurableChargeAxis) (lhs rhs : Nat)
  | underflow (axis : DurableChargeAxis) (held released : Nat)
  deriving DecidableEq, Repr

/-- `add_axis` (L170-173). -/
def addAxis (axis : DurableChargeAxis) (lhs rhs : Nat) : Except DurableVectorError Nat :=
  if lhs + rhs < 2 ^ 64 then .ok (lhs + rhs) else .error (.overflow axis lhs rhs)

/-- `sub_axis` (L175-182). -/
def subAxis (axis : DurableChargeAxis) (held released : Nat) : Except DurableVectorError Nat :=
  if released ≤ held then .ok (held - released) else .error (.underflow axis held released)

namespace DurableChargeVector

/-- `ZERO` (L69-76). -/
def zero : DurableChargeVector := ⟨0, 0, 0, 0, 0, 0⟩

/-- `axis` (L78-87). -/
def axis (vector : DurableChargeVector) : DurableChargeAxis → Nat
  | .canonicalDurableBytes => vector.canonicalDurableBytes
  | .retainedHistoryBytes => vector.retainedHistoryBytes
  | .branchCount => vector.branchCount
  | .indexCount => vector.indexCount
  | .viewCount => vector.viewCount
  | .subscriptionCount => vector.subscriptionCount

/-- `is_zero` (L89-91). -/
def isZero (vector : DurableChargeVector) : Bool :=
  vector == zero

/-- A checked operation on each axis in turn. -/
def zipAxes (operation : DurableChargeAxis → Nat → Nat → Except DurableVectorError Nat)
    (vector other : DurableChargeVector) : Except DurableVectorError DurableChargeVector := do
  let on axis := operation axis (vector.axis axis) (other.axis axis)
  return {
    canonicalDurableBytes := ← on .canonicalDurableBytes
    retainedHistoryBytes := ← on .retainedHistoryBytes
    branchCount := ← on .branchCount
    indexCount := ← on .indexCount
    viewCount := ← on .viewCount
    subscriptionCount := ← on .subscriptionCount }

/-- `checked_add` (L99-132). -/
def checkedAdd : DurableChargeVector → DurableChargeVector →
    Except DurableVectorError DurableChargeVector :=
  zipAxes addAxis

/-- `checked_sub` (L134-167). -/
def checkedSub : DurableChargeVector → DurableChargeVector →
    Except DurableVectorError DurableChargeVector :=
  zipAxes subAxis

@[simp]
theorem axis_zero (axis : DurableChargeAxis) : zero.axis axis = 0 := by
  cases axis <;> rfl

variable {vector other result : DurableChargeVector}

theorem axis_of_zipAxes {operation : DurableChargeAxis → Nat → Nat → Except DurableVectorError Nat}
    (h : zipAxes operation vector other = .ok result) (axis : DurableChargeAxis) :
    operation axis (vector.axis axis) (other.axis axis) = .ok (result.axis axis) := by
  unfold zipAxes at h
  simp only [bind_eq_ok] at h
  obtain ⟨a, ha, b, hb, c, hc, d, hd, e, he, f, hf, h⟩ := h
  obtain rfl := Except.ok.inj h
  cases axis <;> assumption

theorem axis_of_checkedAdd (h : vector.checkedAdd other = .ok result) (axis : DurableChargeAxis) :
    result.axis axis = vector.axis axis + other.axis axis := by
  have haxis := axis_of_zipAxes h axis
  unfold addAxis at haxis
  split_ifs at haxis
  exact (Except.ok.inj haxis).symm

theorem axis_of_checkedSub (h : vector.checkedSub other = .ok result) (axis : DurableChargeAxis) :
    result.axis axis + other.axis axis = vector.axis axis := by
  have haxis := axis_of_zipAxes h axis
  unfold subAxis at haxis
  split_ifs at haxis with hle
  have := Except.ok.inj haxis
  omega

end DurableChargeVector

/-! ## Buckets -/

/-- `ResourceClass` (L289-292). -/
inductive ResourceClass where
  | ordinary
  | registeredMaintenance
  deriving DecidableEq, Repr

/-- Which of the two amounts of a class an entry holds: `SubjectComponent` (L1887-1890). -/
inductive SubjectComponent where
  | reservation
  | committed
  deriving DecidableEq, Repr

/-- `BucketState` (L425-432). -/
structure BucketState where
  hardLimit : DurableChargeVector
  protectedMaintenanceReserve : DurableChargeVector
  ordinaryReserved : DurableChargeVector
  maintenanceReserved : DurableChargeVector
  ordinaryCommitted : DurableChargeVector
  maintenanceCommitted : DurableChargeVector
  deriving DecidableEq, Repr

/-- `BucketStateError` (L582-608). -/
inductive BucketStateError where
  | reserveExceedsHardLimit (axis : DurableChargeAxis) (reserve hardLimit : Nat)
  | usageOverflow (axis : DurableChargeAxis) (first second : Nat)
  | ordinaryCapacityExceeded (axis : DurableChargeAxis) (usage limit : Nat)
  | maintenanceReserveExceeded (axis : DurableChargeAxis) (usage reserve : Nat)
  | hardLimitExceeded (axis : DurableChargeAxis) (usage hardLimit : Nat)
  deriving DecidableEq, Repr

namespace BucketState

/-- The amount of one component and class. -/
def held (state : BucketState) : SubjectComponent → ResourceClass → DurableChargeVector
  | .reservation, .ordinary => state.ordinaryReserved
  | .reservation, .registeredMaintenance => state.maintenanceReserved
  | .committed, .ordinary => state.ordinaryCommitted
  | .committed, .registeredMaintenance => state.maintenanceCommitted

/-- The sum of two amounts, or `UsageOverflow`. -/
def checkedUsage (axis : DurableChargeAxis) (first second : Nat) : Except BucketStateError Nat :=
  if first + second < 2 ^ 64 then .ok (first + second)
  else .error (.usageOverflow axis first second)

/-- One turn of the loop of `validate` (L512-575). -/
def validateAxis (state : BucketState) (axis : DurableChargeAxis) :
    Except BucketStateError Unit := do
  let hard := state.hardLimit.axis axis
  let reserve := state.protectedMaintenanceReserve.axis axis
  refuse (reserve > hard) (.reserveExceedsHardLimit axis reserve hard)
  let ordinaryLimit := hard - reserve
  let ordinaryUse ← checkedUsage axis (state.ordinaryCommitted.axis axis)
    (state.ordinaryReserved.axis axis)
  refuse (ordinaryUse > ordinaryLimit) (.ordinaryCapacityExceeded axis ordinaryUse ordinaryLimit)
  let maintenanceUse ← checkedUsage axis (state.maintenanceCommitted.axis axis)
    (state.maintenanceReserved.axis axis)
  refuse (maintenanceUse > reserve) (.maintenanceReserveExceeded axis maintenanceUse reserve)
  let total ← checkedUsage axis ordinaryUse maintenanceUse
  refuse (total > hard) (.hardLimitExceeded axis total hard)

/-- `validate` (L511-578). -/
def validate (state : BucketState) : Except BucketStateError Unit :=
  DurableChargeAxis.all.forM state.validateAxis

/-- A bucket without any use (`empty_state`, L648-657). -/
def empty (hardLimit protectedMaintenanceReserve : DurableChargeVector) : BucketState where
  hardLimit := hardLimit
  protectedMaintenanceReserve := protectedMaintenanceReserve
  ordinaryReserved := .zero
  maintenanceReserved := .zero
  ordinaryCommitted := .zero
  maintenanceCommitted := .zero

@[simp]
theorem held_empty (hardLimit reserve : DurableChargeVector) (component : SubjectComponent)
    (resourceClass : ResourceClass) : (empty hardLimit reserve).held component resourceClass = .zero := by
  cases component <;> cases resourceClass <;> rfl

theorem checkedUsage_eq_ok {axis : DurableChargeAxis} {first second use : Nat} :
    checkedUsage axis first second = .ok use ↔ first + second < 2 ^ 64 ∧ use = first + second := by
  unfold checkedUsage
  split_ifs with h
  · simp only [Except.ok.injEq, h, true_and]
    exact eq_comm
  · simp only [h, false_and]

/-- On every axis, ordinary use stays below the limit without the reserve and maintenance use within
the reserve. -/
theorem use_of_validate {state : BucketState} (h : state.validate = .ok ())
    (axis : DurableChargeAxis) :
    state.protectedMaintenanceReserve.axis axis ≤ state.hardLimit.axis axis ∧
      state.ordinaryReserved.axis axis + state.ordinaryCommitted.axis axis ≤
        state.hardLimit.axis axis - state.protectedMaintenanceReserve.axis axis ∧
      state.maintenanceReserved.axis axis + state.maintenanceCommitted.axis axis ≤
        state.protectedMaintenanceReserve.axis axis := by
  have haxis := forM_eq_ok.mp h axis axis.mem_all
  unfold validateAxis at haxis
  simp only [bind_eq_ok] at haxis
  obtain ⟨_, hreserve, ordinaryUse, hordinary, _, hordinaryLimit, maintenanceUse, hmaintenance, _,
    hmaintenanceLimit, -⟩ := haxis
  obtain ⟨-, rfl⟩ := checkedUsage_eq_ok.mp hordinary
  obtain ⟨-, rfl⟩ := checkedUsage_eq_ok.mp hmaintenance
  rw [refuse_eq_ok, decide_eq_false_iff_not] at hreserve hordinaryLimit hmaintenanceLimit
  omega

end BucketState

end FrankenGraph.Resource

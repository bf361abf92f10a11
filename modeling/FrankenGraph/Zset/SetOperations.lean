import FrankenGraph.Zset.Checked
import FrankenGraph.Library.Merge

/-!
# Incremental set operations

`IncrementalSet` (`zset/set.rs`): the counts of both inputs are kept, and a tick visits
the keys that one of its deltas changes, in their order. For each of them the output changes by the
difference of the operation on the new and on the old pair of counts.

Results:
* `SetOperation.weight_eq_result`: on counts that are not negative, the operation is the bag law
* `prepare_cases`: which ticks are accepted, and the delta of an accepted one
* `checkedPrepare_follows`: a refused request only ends a tick earlier
* `set_operations_exact`: the returned deltas add up to the operation on the integrated inputs
-/

namespace FrankenGraph.Zset

open Std

/-- `SetOperation` (L17-24). -/
inductive SetOperation where
  | unionAll
  | unionDistinct
  | intersectAll
  | intersectDistinct
  | exceptAll
  | exceptDistinct
  deriving DecidableEq, Repr

/-- `SetInput` (L27-30). -/
inductive SetInput where
  | left
  | right
  deriving DecidableEq, Repr

/-- `SetError` (L33-40) without `Delta`, which is `CallError.refused`. -/
inductive SetError where
  | negativeMultiplicity (input : SetInput)
  deriving DecidableEq, Repr

namespace SetOperation

/-- `weight` (L97-128). -/
def weight (operation : SetOperation) (left right : Int) : Int :=
  match operation with
  | .unionDistinct => if left ≠ 0 ∨ right ≠ 0 then 1 else 0
  | .intersectDistinct => if left ≠ 0 ∧ right ≠ 0 then 1 else 0
  | .exceptDistinct => if left ≠ 0 ∧ right = 0 then 1 else 0
  | .unionAll => left + right
  | .intersectAll => min left right
  | .exceptAll => if right < left then left + -right else 0

/-- The bag law or set law of an operation, for one key with the counts of both inputs. -/
def result (operation : SetOperation) (left right : Int) : Int :=
  match operation with
  | .unionAll => left + right
  | .unionDistinct => if 0 < left + right then 1 else 0
  | .intersectAll => min left right
  | .intersectDistinct => if 0 < min left right then 1 else 0
  | .exceptAll => max (left - right) 0
  | .exceptDistinct => if 0 < left ∧ ¬ 0 < right then 1 else 0

theorem weight_eq_result (operation : SetOperation) {left right : Int} (hleft : 0 ≤ left)
    (hright : 0 ≤ right) : operation.weight left right = operation.result left right := by
  cases operation with
  | unionAll => rfl
  | unionDistinct | intersectDistinct | exceptDistinct =>
    refine if_congr ?_ rfl rfl
    omega
  | intersectAll => rfl
  | exceptAll =>
    unfold weight result
    dsimp only
    split_ifs with hlt
    · omega
    · omega

end SetOperation

variable {T : Type} [Ord T] [TransOrd T]

/-- `IncrementalSet` (L62-66). -/
structure IncrementalSet (T : Type) [Ord T] [TransOrd T] where
  operation : SetOperation
  left : ZSet T
  right : ZSet T

/-- `SetUpdate` (L220-225). -/
structure SetUpdate (T : Type) [Ord T] [TransOrd T] where
  left : BTreeMap T Int
  right : BTreeMap T Int
  delta : ZSet T

namespace IncrementalSet

/-- `new` (L68-74). -/
def new (operation : SetOperation) : IncrementalSet T where
  operation := operation
  left := ZSet.new
  right := ZSet.new

/-- The checks of one changed key (L174-179), the left side first. -/
def checkKey (s : IncrementalSet T) (left right : BTreeMap T Int) (key : T) : Option SetError :=
  if nextCount s.left left key < 0 then some (.negativeMultiplicity .left)
  else if nextCount s.right right key < 0 then some (.negativeMultiplicity .right)
  else none

/-- The changed keys of both sides, each once (L150-168). -/
def changedKeys (left right : BTreeMap T Int) : List T :=
  overlayBy id (left.toList.map Prod.fst) (right.toList.map Prod.fst)

variable [LawfulEqOrd T] [DecidableEq T]

/-- The output change of one changed key (L169-193). -/
def changeKey (s : IncrementalSet T) (left right : BTreeMap T Int) (delta : ZSet T) (key : T) :
    ZSet T :=
  let before := s.operation.weight (s.left.coeff key) (s.right.coeff key)
  let after := s.operation.weight (nextCount s.left left key) (nextCount s.right right key)
  let change := after + -before
  if change ≠ 0 then delta.accumulate key change else delta

/-- `prepare` (L136-202). -/
def prepare (s : IncrementalSet T) (deltaLeft deltaRight : ZSet T) :
    Except SetError (SetUpdate T) := do
  let left := s.left.prepareIntegration deltaLeft
  let right := s.right.prepareIntegration deltaRight
  let delta ← (changedKeys left right).foldlM
    (guarded (s.checkKey left right) (s.changeKey left right)) ZSet.new
  return { left, right, delta }

/-- `prepare` (L136-202) with its requests. -/
def checkedPrepare (s : IncrementalSet T) (tick : ZSet T × ZSet T) :
    Effect (CallError ZSetError SetError) Answers (SetUpdate T) := do
  asking Checked.event
  let left ← asking (Checked.prepareIntegration s.left tick.1)
  let right ← asking (Checked.prepareIntegration s.right tick.2)
  let delta ← rounds Checked.event Checked.work (s.checkKey left right) (s.changeKey left right)
    (changedKeys left right) .new
  asking Checked.event
  return { left, right, delta }

/-- `SetUpdate::commit` (L234-244). -/
def commit (s : IncrementalSet T) (update : SetUpdate T) : IncrementalSet T × ZSet T :=
  ({ s with left := s.left.publish update.left, right := s.right.publish update.right },
    update.delta)

/-- A call of `prepare` whose update is committed or dropped. -/
def run (s : IncrementalSet T) (call : Call (ZSet T × ZSet T)) :
    Ended (CallError ZSetError SetError) (ZSet T) × IncrementalSet T :=
  call.run checkedPrepare commit s

theorem checkedPrepare_follows (s : IncrementalSet T) (tick : ZSet T × ZSet T) :
    Follows (s.checkedPrepare tick) (s.prepare tick.1 tick.2) := by
  refine .asking_bind (Checked.request_computes _) ?_
  refine .asking_bind (Checked.prepareIntegration_computes s.left tick.1) ?_
  refine .asking_bind (Checked.prepareIntegration_computes s.right tick.2) ?_
  refine (rounds_follows (Checked.request_computes _) Checked.work_computes _ _ _ _).bind
    fun delta _ => ?_
  exact .asking_bind (Checked.request_computes _) .pure

variable {s : IncrementalSet T} {deltaLeft deltaRight : ZSet T}

/-! ## The changed keys -/

omit [LawfulEqOrd T] [DecidableEq T] in
theorem ascending_keys (m : BTreeMap T Int) : Ascending id (m.toList.map Prod.fst) :=
  List.pairwise_map.mpr m.ascending_toList

theorem mem_changedKeys {k : T} :
    k ∈ changedKeys (s.left.prepareIntegration deltaLeft) (s.right.prepareIntegration deltaRight) ↔
      deltaLeft.coeff k ≠ 0 ∨ deltaRight.coeff k ≠ 0 := by
  have hkey : ∀ z delta : ZSet T,
      k ∈ (z.prepareIntegration delta).toList.map Prod.fst ↔ delta.coeff k ≠ 0 := by
    intro z delta
    rw [BTreeMap.mem_keys_toList, ← ZSet.weight_isSome, ZSet.lookup_prepareIntegration,
      Option.isSome_iff_exists]
    simp only [Option.map_eq_some_iff]
    exact ⟨fun ⟨_, w, hw, _⟩ => ⟨w, hw⟩, fun ⟨w, hw⟩ => ⟨_, w, hw, rfl⟩⟩
  rw [changedKeys, mem_overlayBy (ascending_keys _) (ascending_keys _), hkey, hkey]
  constructor
  · rintro (hright | ⟨hleft, -⟩)
    · exact .inr hright
    · exact .inl hleft
  · intro hchanged
    by_cases hright : deltaRight.coeff k = 0
    · refine .inr ⟨hchanged.resolve_right (not_not.mpr hright), ?_⟩
      rintro b hb rfl
      exact (hkey _ _).mp hb hright
    · exact .inl hright

omit [DecidableEq T] in
theorem nodup_changedKeys (left right : BTreeMap T Int) : (changedKeys left right).Nodup := by
  have hnodup := (pairwise_overlayBy (ascending_keys left) (ascending_keys right)).nodup_map
  rwa [List.map_id] at hnodup

/-! ## Accepted ticks -/

/-- The counts of a side after a tick. -/
def nextLeft (s : IncrementalSet T) (deltaLeft : ZSet T) (k : T) : Int :=
  s.left.coeff k + deltaLeft.coeff k

/-- The counts of the other side after a tick. -/
def nextRight (s : IncrementalSet T) (deltaRight : ZSet T) (k : T) : Int :=
  s.right.coeff k + deltaRight.coeff k

/-- The output of the operation on the retained counts. -/
def output (s : IncrementalSet T) (k : T) : Int :=
  s.operation.weight (s.left.coeff k) (s.right.coeff k)

theorem coeff_changeKey (delta : ZSet T) (key k : T) :
    (s.changeKey (s.left.prepareIntegration deltaLeft) (s.right.prepareIntegration deltaRight) delta
        key).coeff k =
      delta.coeff k + if key = k then
        s.operation.weight (s.nextLeft deltaLeft k) (s.nextRight deltaRight k) - s.output k
      else 0 := by
  unfold changeKey
  simp only [nextCount_eq]
  by_cases hkey : key = k
  · subst hkey
    rw [if_pos rfl, sub_eq_add_neg]
    split_ifs with hchange
    · rw [ZSet.coeff_accumulate, if_pos rfl]
      rfl
    · rw [not_not] at hchange
      exact (add_zero _).symm.trans (congrArg _ hchange.symm)
  · rw [if_neg hkey, add_zero]
    split_ifs
    · rw [ZSet.coeff_accumulate, if_neg hkey, add_zero]
    · rfl

/-- The delta of a tick is the change of the output, for every key. -/
theorem coeff_delta (k : T) :
    ((changedKeys (s.left.prepareIntegration deltaLeft) (s.right.prepareIntegration deltaRight)).foldl
        (s.changeKey (s.left.prepareIntegration deltaLeft) (s.right.prepareIntegration deltaRight))
        ZSet.new).coeff k =
      s.operation.weight (s.nextLeft deltaLeft k) (s.nextRight deltaRight k) - s.output k := by
  rw [ZSet.coeff_foldl (fun delta key => coeff_changeKey delta key k), ZSet.coeff_new, zero_add,
    sum_eq_single_of_nodup (nodup_changedKeys _ _) _ k fun u _ hu => if_neg hu]
  simp only [mem_changedKeys, if_true]
  split_ifs with hchanged
  · rfl
  · push Not at hchanged
    rw [nextLeft, nextRight, hchanged.1, hchanged.2, add_zero, add_zero]
    exact (sub_self _).symm

/-- A tick is accepted when no changed key gets a negative count, and otherwise refused for a side on
which one does. -/
theorem prepare_cases (s : IncrementalSet T) (deltaLeft deltaRight : ZSet T) :
    (∃ update, s.prepare deltaLeft deltaRight = .ok update ∧
      update.left = s.left.prepareIntegration deltaLeft ∧
      update.right = s.right.prepareIntegration deltaRight ∧
      (∀ k, update.delta.coeff k =
        s.operation.weight (s.nextLeft deltaLeft k) (s.nextRight deltaRight k) - s.output k) ∧
      ∀ k, deltaLeft.coeff k ≠ 0 ∨ deltaRight.coeff k ≠ 0 →
        0 ≤ s.nextLeft deltaLeft k ∧ 0 ≤ s.nextRight deltaRight k) ∨
    ∃ input k, s.prepare deltaLeft deltaRight = .error (.negativeMultiplicity input) ∧
      (deltaLeft.coeff k ≠ 0 ∨ deltaRight.coeff k ≠ 0) ∧
      match input with
      | .left => s.nextLeft deltaLeft k < 0
      | .right => s.nextRight deltaRight k < 0 := by
  have hloop := foldlM_guarded
    (s.checkKey (s.left.prepareIntegration deltaLeft) (s.right.prepareIntegration deltaRight))
    (s.changeKey (s.left.prepareIntegration deltaLeft) (s.right.prepareIntegration deltaRight))
    (changedKeys (s.left.prepareIntegration deltaLeft) (s.right.prepareIntegration deltaRight))
    ZSet.new
  have hcheck : ∀ k, s.checkKey (s.left.prepareIntegration deltaLeft)
      (s.right.prepareIntegration deltaRight) k =
      if s.nextLeft deltaLeft k < 0 then some (.negativeMultiplicity .left)
      else if s.nextRight deltaRight k < 0 then some (.negativeMultiplicity .right) else none := by
    intro k
    unfold checkKey
    rw [nextCount_eq, nextCount_eq]
    rfl
  unfold prepare
  dsimp only
  rw [hloop]
  cases hchecks : (changedKeys (s.left.prepareIntegration deltaLeft)
      (s.right.prepareIntegration deltaRight)).findSome? (s.checkKey
        (s.left.prepareIntegration deltaLeft) (s.right.prepareIntegration deltaRight)) with
  | none =>
    refine .inl ⟨_, rfl, rfl, rfl, coeff_delta, fun k hk => ?_⟩
    have hnone := List.findSome?_eq_none_iff.mp hchecks k (mem_changedKeys.mpr hk)
    rw [hcheck] at hnone
    split_ifs at hnone with hleft hright
    exact ⟨Int.not_lt.mp hleft, Int.not_lt.mp hright⟩
  | some error =>
    obtain ⟨k, hk, hsome⟩ := List.exists_of_findSome?_eq_some hchecks
    rw [hcheck] at hsome
    refine .inr ?_
    split_ifs at hsome with hleft hright
    · cases hsome
      exact ⟨.left, k, rfl, mem_changedKeys.mp hk, hleft⟩
    · cases hsome
      exact ⟨.right, k, rfl, mem_changedKeys.mp hk, hright⟩

end IncrementalSet

/-! ## Runs -/

variable [LawfulEqOrd T] [DecidableEq T]

/-- The states that committed ticks lead to, with their inputs and the returned deltas. A tick that
fails, or whose guard is dropped, publishes nothing. -/
inductive SetRuns (operation : SetOperation) :
    List (ZSet T × ZSet T) → List (ZSet T) → IncrementalSet T → Prop where
  | start : SetRuns operation [] [] (.new operation)
  | commit {inputs : List (ZSet T × ZSet T)} {deltas : List (ZSet T)} {s : IncrementalSet T}
      {tick : ZSet T × ZSet T} {update : SetUpdate T} (hrun : SetRuns operation inputs deltas s)
      (hok : s.prepare tick.1 tick.2 = .ok update) :
      SetRuns operation (inputs ++ [tick]) (deltas ++ [(s.commit update).2]) (s.commit update).1

/-- The integrated count of a key on the left. -/
def leftBag (inputs : List (ZSet T × ZSet T)) (k : T) : Int :=
  integrated (inputs.map Prod.fst) k

/-- The integrated count of a key on the right. -/
def rightBag (inputs : List (ZSet T × ZSet T)) (k : T) : Int :=
  integrated (inputs.map Prod.snd) k

omit [LawfulEqOrd T] [DecidableEq T] in
theorem leftBag_concat (inputs : List (ZSet T × ZSet T)) (tick : ZSet T × ZSet T) (k : T) :
    leftBag (inputs ++ [tick]) k = leftBag inputs k + tick.1.coeff k := by
  rw [leftBag, List.map_append, List.map_singleton, integrated_concat]
  rfl

omit [LawfulEqOrd T] [DecidableEq T] in
theorem rightBag_concat (inputs : List (ZSet T × ZSet T)) (tick : ZSet T × ZSet T) (k : T) :
    rightBag (inputs ++ [tick]) k = rightBag inputs k + tick.2.coeff k := by
  rw [rightBag, List.map_append, List.map_singleton, integrated_concat]
  rfl

namespace SetRuns

variable {operation : SetOperation} {inputs : List (ZSet T × ZSet T)} {deltas : List (ZSet T)}
  {s : IncrementalSet T}

/-- What every state that committed ticks lead to holds. -/
structure Sound (operation : SetOperation) (inputs : List (ZSet T × ZSet T))
    (deltas : List (ZSet T)) (s : IncrementalSet T) : Prop where
  operation_eq : s.operation = operation
  left_eq : ∀ k, s.left.coeff k = leftBag inputs k
  right_eq : ∀ k, s.right.coeff k = rightBag inputs k
  nonneg : ∀ k, 0 ≤ leftBag inputs k ∧ 0 ≤ rightBag inputs k
  sum_eq : ∀ k, integrated deltas k = s.output k

theorem sound (h : SetRuns operation inputs deltas s) : Sound operation inputs deltas s := by
  induction h with
  | start =>
    refine ⟨rfl, fun k => ZSet.coeff_new, fun k => ZSet.coeff_new, fun k => ⟨le_rfl, le_rfl⟩,
      fun k => ?_⟩
    have hzero : (IncrementalSet.new operation : IncrementalSet T).output k =
        operation.weight 0 0 := by
      unfold IncrementalSet.output IncrementalSet.new
      rw [ZSet.coeff_new]
    rw [hzero]
    cases operation <;> rfl
  | @commit inputs deltas s tick update hrun hok ih =>
    rcases s.prepare_cases tick.1 tick.2 with
      ⟨update', hok', hleft, hright, hdelta, hnonneg⟩ | ⟨input, k, herror, -⟩
    · cases hok.symm.trans hok'
      have hcommit : ∀ k, (s.commit update).1.left.coeff k = s.nextLeft tick.1 k ∧
          (s.commit update).1.right.coeff k = s.nextRight tick.2 k := by
        intro k
        unfold IncrementalSet.commit
        rw [hleft, hright, ZSet.coeff_publish_prepareIntegration,
          ZSet.coeff_publish_prepareIntegration]
        exact ⟨rfl, rfl⟩
      have hnextLeft : ∀ k, s.nextLeft tick.1 k = leftBag (inputs ++ [tick]) k := fun k => by
        rw [IncrementalSet.nextLeft, ih.left_eq, leftBag_concat]
      have hnextRight : ∀ k, s.nextRight tick.2 k = rightBag (inputs ++ [tick]) k := fun k => by
        rw [IncrementalSet.nextRight, ih.right_eq, rightBag_concat]
      refine ⟨ih.operation_eq, fun k => (hcommit k).1.trans (hnextLeft k),
        fun k => (hcommit k).2.trans (hnextRight k), fun k => ?_, fun k => ?_⟩
      · by_cases hk : tick.1.coeff k ≠ 0 ∨ tick.2.coeff k ≠ 0
        · rw [← hnextLeft, ← hnextRight]
          exact hnonneg k hk
        · push Not at hk
          rw [leftBag_concat, rightBag_concat, hk.1, hk.2, add_zero, add_zero]
          exact ih.nonneg k
      · change integrated (deltas ++ [update.delta]) k =
          s.operation.weight ((s.commit update).1.left.coeff k) ((s.commit update).1.right.coeff k)
        rw [integrated_concat, ih.sum_eq, hdelta, (hcommit k).1, (hcommit k).2, add_sub_cancel]
    · cases hok.symm.trans herror

/-- Which ticks are refused, with every request granted. -/
theorem prepare_error (h : SetRuns operation inputs deltas s) (deltaLeft deltaRight : ZSet T) :
    ((∃ input, s.prepare deltaLeft deltaRight = .error (.negativeMultiplicity input)) ↔
      ∃ k, (deltaLeft.coeff k ≠ 0 ∨ deltaRight.coeff k ≠ 0) ∧
        (leftBag (inputs ++ [(deltaLeft, deltaRight)]) k < 0 ∨
          rightBag (inputs ++ [(deltaLeft, deltaRight)]) k < 0)) ∧
    (s.prepare deltaLeft deltaRight = .error (.negativeMultiplicity .left) →
      ∃ k, leftBag (inputs ++ [(deltaLeft, deltaRight)]) k < 0) ∧
    (s.prepare deltaLeft deltaRight = .error (.negativeMultiplicity .right) →
      ∃ k, rightBag (inputs ++ [(deltaLeft, deltaRight)]) k < 0) := by
  have hsound := h.sound
  have hnextLeft : ∀ k, s.nextLeft deltaLeft k = leftBag (inputs ++ [(deltaLeft, deltaRight)]) k :=
    fun k => by rw [IncrementalSet.nextLeft, hsound.left_eq, leftBag_concat]
  have hnextRight : ∀ k, s.nextRight deltaRight k =
      rightBag (inputs ++ [(deltaLeft, deltaRight)]) k :=
    fun k => by rw [IncrementalSet.nextRight, hsound.right_eq, rightBag_concat]
  rcases s.prepare_cases deltaLeft deltaRight with
    ⟨update, hok, -, -, -, hnonneg⟩ | ⟨input, k, herror, hchanged, hnegative⟩
  · simp only [hok, reduceCtorEq, exists_false, false_iff, false_implies, and_true]
    rintro ⟨k, hk, hneg⟩
    obtain ⟨hleft, hright⟩ := hnonneg k hk
    rw [hnextLeft] at hleft
    rw [hnextRight] at hright
    omega
  · cases input with
    | left =>
      dsimp only at hnegative
      rw [hnextLeft] at hnegative
      refine ⟨iff_of_true ⟨_, herror⟩ ⟨k, hchanged, .inl hnegative⟩, fun _ => ⟨k, hnegative⟩,
        fun hother => ?_⟩
      cases herror.symm.trans hother
    | right =>
      dsimp only at hnegative
      rw [hnextRight] at hnegative
      refine ⟨iff_of_true ⟨_, herror⟩ ⟨k, hchanged, .inr hnegative⟩, fun hother => ?_,
        fun _ => ⟨k, hnegative⟩⟩
      cases herror.symm.trans hother

end SetRuns

/-- Along every run of every operation, the returned deltas add up to the operation on the integrated
inputs, key by key. A call commits what was prepared, or it leaves the state as it was; it fails with
an error of its own only when a key that it changes would get a negative integrated count on the side
that the error names, and always then when no request is refused. -/
theorem set_operations_exact (operation : SetOperation) (inputs : List (ZSet T × ZSet T))
    (deltas : List (ZSet T)) (s : IncrementalSet T) (h : SetRuns operation inputs deltas s) :
    (∀ k, integrated deltas k = operation.result (leftBag inputs k) (rightBag inputs k)) ∧
    ∀ call : Call (ZSet T × ZSet T),
      Transacts (s.prepare call.input.1 call.input.2) s.commit call s (s.run call) ∧
      (false ∉ call.answers →
        ((∃ input, (s.run call).1 = .failed (.own (.negativeMultiplicity input))) ↔
          ∃ k, (call.input.1.coeff k ≠ 0 ∨ call.input.2.coeff k ≠ 0) ∧
            (leftBag (inputs ++ [call.input]) k < 0 ∨ rightBag (inputs ++ [call.input]) k < 0))) ∧
      ((s.run call).1 = .failed (.own (.negativeMultiplicity .left)) →
        ∃ k, leftBag (inputs ++ [call.input]) k < 0) ∧
      ((s.run call).1 = .failed (.own (.negativeMultiplicity .right)) →
        ∃ k, rightBag (inputs ++ [call.input]) k < 0) := by
  have hsound := h.sound
  refine ⟨fun k => ?_, fun call => ?_⟩
  · rw [hsound.sum_eq, IncrementalSet.output, hsound.operation_eq, hsound.left_eq, hsound.right_eq]
    exact operation.weight_eq_result (hsound.nonneg k).1 (hsound.nonneg k).2
  have hcall : Transacts _ _ call s (s.run call) :=
    Call.run_transacts (s.checkedPrepare_follows call.input)
  obtain ⟨hiff, hleft, hright⟩ := h.prepare_error call.input.1 call.input.2
  refine ⟨hcall, fun hgranted => ?_, fun hfailed => hleft (hcall.own_error _ hfailed),
    fun hfailed => hright (hcall.own_error _ hfailed)⟩
  rw [← hiff]
  exact exists_congr fun input => hcall.failed_iff hgranted _

/-- One tick puts two copies of a key on the left and one on the right of EXCEPT ALL. -/
theorem set_operations_exact_sample : ∃ (deltas : List (ZSet Nat)) (s : IncrementalSet Nat),
      SetRuns .exceptAll [(ZSet.fromUpdates [(7, 2)], ZSet.fromUpdates [(7, 1)])] deltas s ∧
        integrated deltas 7 = 1 := by
  obtain ⟨update, hok⟩ : ∃ update, (IncrementalSet.new .exceptAll : IncrementalSet Nat).prepare
      (ZSet.fromUpdates [(7, 2)]) (ZSet.fromUpdates [(7, 1)]) = .ok update := ⟨_, rfl⟩
  have hrun := @SetRuns.commit Nat _ _ _ _ .exceptAll [] [] _ (_, _) update .start hok
  exact ⟨_, _, hrun, (set_operations_exact .exceptAll _ _ _ hrun).1 7⟩

/-- A count would be negative, but the control ends the tick first. -/
theorem set_refused_first : (leftBag [(ZSet.fromUpdates [(7, -1)], ZSet.fromUpdates [])] 7 < 0) ∧
    ((IncrementalSet.new .unionAll : IncrementalSet Nat).run
      ⟨(ZSet.fromUpdates [(7, -1)], ZSet.fromUpdates []), [false], true⟩).1 =
        .failed (.refused .control) :=
  ⟨by decide, rfl⟩

end FrankenGraph.Zset

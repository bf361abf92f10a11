import FrankenGraph.Zset.Join
import FrankenGraph.Zset.Checked

/-!
# Runs of the incremental join

The ticks of `IncrementalJoin` as they are called: every loop of `prepare_filtered` and
`prepare_inputs` makes its requests, and the predicate may fail. A run is a sequence of calls; only a
call that is neither refused nor dropped publishes.

Results:
* `checkedPrepare_follows`: a call computes the pure preparation, or a request was refused
* `JoinRun.sound_calls`: what the committed ticks and the returned deltas of a run add up to
* `join_deltas_exact`: the returned deltas add up to the filtered join of the integrated inputs, up to
  the change made by the ticks that were prepared for their inputs only
-/

namespace FrankenGraph.Zset

open Std Checked

variable {K L R V : Type} [Ord K] [TransOrd K] [Ord L] [TransOrd L] [Ord R] [TransOrd R] [Ord V]
  [TransOrd V]

/-! ## The loops with their requests -/

/-- An event that is asked for under a condition. -/
def eventIf (condition : Bool) : Effect ZSetError Answers Unit :=
  if condition then event else pure ()

/-- `grouped` (L303-323). -/
def checkedGrouped (delta : ZSet (K × V)) : Effect ZSetError Answers (BTreeMap K (List (V × Int))) :=
  delta.iter.foldlM (fun groups e => do
    event
    admitWeight
    eventIf (groups[e.1.1]?).isNone
    event
    return groups.insert e.1.1 ((groups[e.1.1]?).getD [] ++ [(e.1.2, e.2)])) ∅

/-- `prepare_changes` (L353-386). -/
def checkedPrepareChanges (base : Arrangement K V) (groups : BTreeMap K (List (V × Int))) :
    Effect ZSetError Answers (Changes K V) :=
  groups.toList.foldlM (fun prepared e => do
    event
    event
    eventIf (base[e.1]?).isNone
    let replacement ← e.2.foldlM (fun replacement change => do
      event
      let old := (base[e.1]?).bind fun group => group.weight change.1
      let next ← checked (match old with
        | some old => old + change.2
        | none => change.2)
      eventIf (old.isNone && next ≠ 0)
      event
      return replacement.insert change.1 next) ∅
    return prepared.insert e.1 replacement) ∅

variable [LawfulEqOrd K] [DecidableEq K] [LawfulEqOrd L] [DecidableEq L] [LawfulEqOrd R]
  [DecidableEq R]

local instance lawfulEqOrd_joined : LawfulEqOrd (K × L × R) := inferInstance

/-- `add_product` (L325-351): the predicate may fail. -/
def checkedAddProduct (predicate : K → L → R → Bool) (output : ZSet (K × L × R)) (key : K)
    (left : L × Int) (right : R × Int) : Effect ZSetError Answers (ZSet (K × L × R)) := do
  event
  request .callback
  if predicate key left.1 right.1 then
    let weight ← checked (left.2 * right.2)
    localCall (Checked.accumulate output (key, left.1, right.1) weight)
  else return output

/-- The nested loop over the rows of two groups of one key. -/
def checkedProducts (predicate : K → L → R → Bool) (key : K) (lefts : List (L × Int))
    (rights : List (R × Int)) (output : ZSet (K × L × R)) :
    Effect ZSetError Answers (ZSet (K × L × R)) :=
  lefts.foldlM (fun output l =>
    rights.foldlM (fun output r => checkedAddProduct predicate output key l r) output) output

/-- A term of the derivative for one key: nothing when a side does not have the key. -/
def checkedTerm (predicate : K → L → R → Bool) (key : K) (lefts : Option (List (L × Int)))
    (rights : Option (List (R × Int))) (output : ZSet (K × L × R)) :
    Effect ZSetError Answers (ZSet (K × L × R)) :=
  match lefts, rights with
  | some lefts, some rights => checkedProducts predicate key lefts rights output
  | _, _ => pure output

namespace IncrementalJoin

/-- The three terms of the derivative (L139-168). -/
def checkedDerivative (s : IncrementalJoin K L R) (predicate : K → L → R → Bool)
    (left : BTreeMap K (List (L × Int))) (right : BTreeMap K (List (R × Int))) :
    Effect ZSetError Answers (ZSet (K × L × R)) := do
  let output ← left.toList.foldlM (fun output e => do
    event
    let output ← checkedTerm predicate e.1 (some e.2) ((s.right[e.1]?).map ZSet.iter) output
    checkedTerm predicate e.1 (some e.2) right[e.1]? output) ZSet.new
  right.toList.foldlM (fun output e => do
    event
    checkedTerm predicate e.1 ((s.left[e.1]?).map ZSet.iter) (some e.2) output) output

/-- `prepare_filtered` (L125-176). -/
def checkedPrepareFiltered (s : IncrementalJoin K L R) (deltaLeft : ZSet (K × L))
    (deltaRight : ZSet (K × R)) (predicate : K → L → R → Bool) :
    Effect ZSetError Answers (JoinUpdate K L R) := do
  event
  let left ← checkedGrouped deltaLeft
  let right ← checkedGrouped deltaRight
  let output ← s.checkedDerivative predicate left right
  let left ← checkedPrepareChanges s.left left
  let right ← checkedPrepareChanges s.right right
  event
  return { left, right, delta := output }

omit [LawfulEqOrd K] [DecidableEq K] [LawfulEqOrd L] [DecidableEq L] [LawfulEqOrd R]
  [DecidableEq R] in
/-- `prepare_inputs` (L191-210). -/
def checkedPrepareInputs (s : IncrementalJoin K L R) (deltaLeft : ZSet (K × L))
    (deltaRight : ZSet (K × R)) : Effect ZSetError Answers (JoinUpdate K L R) := do
  event
  let left ← checkedGrouped deltaLeft
  let right ← checkedGrouped deltaRight
  let left ← checkedPrepareChanges s.left left
  let right ← checkedPrepareChanges s.right right
  event
  return { left, right, delta := ZSet.new }

end IncrementalJoin

section Computed

theorem eventIf_computes (condition : Bool) : Computes (eventIf condition) () := by
  cases condition with
  | true => exact request_computes _
  | false => exact .pure rfl

omit [LawfulEqOrd K] [DecidableEq K] in
theorem checkedGrouped_computes (delta : ZSet (K × V)) :
    Computes (checkedGrouped delta) (grouped delta) := by
  refine .foldlM (fun groups e => ?_) delta.iter ∅
  refine .bind (request_computes _) fun _ _ => .bind (request_computes _) fun _ _ => ?_
  refine .bind (eventIf_computes _) fun _ _ => ?_
  exact .bind (request_computes _) fun _ _ => .pure rfl

omit [LawfulEqOrd K] [DecidableEq K] in
theorem checkedPrepareChanges_computes (base : Arrangement K V)
    (groups : BTreeMap K (List (V × Int))) :
    Computes (checkedPrepareChanges base groups) (prepareChanges base groups) := by
  refine .foldlM (fun prepared e => ?_) groups.toList ∅
  refine .bind (request_computes _) fun _ _ => .bind (request_computes _) fun _ _ => ?_
  refine .bind (eventIf_computes _) fun _ _ => ?_
  refine .bind (R := (· = replacement base[e.1]? e.2)) (.foldlM (fun replacement change => ?_) e.2 ∅)
    fun _ h => .pure (by rw [h])
  refine .bind (request_computes _) fun _ _ => .bind (checked_outcome _ trivial) fun next hnext => ?_
  refine .bind (eventIf_computes _) fun _ _ => ?_
  exact .bind (request_computes _) fun _ _ => .pure (congrArg (replacement.insert change.1) hnext)

variable (predicate : K → L → R → Bool)

theorem checkedProducts_computes (key : K) (lefts : List (L × Int)) (rights : List (R × Int))
    (output : ZSet (K × L × R)) :
    Computes (checkedProducts predicate key lefts rights output)
      (products predicate key lefts rights output) := by
  refine .foldlM (fun output l => .foldlM (fun output r => ?_) rights output) lefts output
  refine .bind (request_computes _) fun _ _ => .bind (request_computes _) fun _ _ => ?_
  unfold addProduct
  split_ifs
  · refine .bind (checked_outcome _ trivial) fun weight hweight => ?_
    rw [hweight]
    exact localCall_computes (accumulate_outcome _ _ _).anyError
  · exact .pure rfl

theorem checkedTerm_computes (key : K) (lefts : Option (List (L × Int)))
    (rights : Option (List (R × Int))) (output : ZSet (K × L × R)) :
    Computes (checkedTerm predicate key lefts rights output) (match lefts, rights with
      | some lefts, some rights => products predicate key lefts rights output
      | _, _ => output) := by
  cases lefts with
  | none => exact .pure rfl
  | some lefts =>
    cases rights with
    | none => exact .pure rfl
    | some rights => exact checkedProducts_computes predicate key lefts rights output

variable (s : IncrementalJoin K L R)

/-- A loop after a loop. -/
theorem computes_loops {σ α β : Type} {body : σ → α → Effect ZSetError Answers σ}
    {body' : σ → β → Effect ZSetError Answers σ} {step : σ → α → σ} {step' : σ → β → σ}
    (h : ∀ s a, Computes (body s a) (step s a)) (h' : ∀ s b, Computes (body' s b) (step' s b))
    (l : List α) (l' : List β) (s : σ) :
    Computes (l.foldlM body s >>= l'.foldlM body') (l'.foldl step' (l.foldl step s)) := by
  refine .bind (.foldlM h l s) fun _ hs => ?_
  rw [hs]
  exact .foldlM h' l' _

theorem checkedDerivative_computes (left : BTreeMap K (List (L × Int)))
    (right : BTreeMap K (List (R × Int))) :
    Computes (s.checkedDerivative predicate left right) (s.derivative predicate left right) := by
  refine computes_loops (fun output e => ?_) (fun output e => ?_) left.toList right.toList ZSet.new
  · refine .bind (request_computes _) fun _ _ => ?_
    refine .bind (checkedTerm_computes predicate _ _ _ _) fun _ houtput => ?_
    rw [houtput]
    refine (checkedTerm_computes predicate _ _ _ _).weaken (fun _ h => h.trans ?_) fun _ h => h
    cases s.right[e.1]? <;> cases right[e.1]? <;> rfl
  · refine .bind (request_computes _) fun _ _ => ?_
    refine (checkedTerm_computes predicate _ _ _ _).weaken (fun _ h => h.trans ?_) fun _ h => h
    cases s.left[e.1]? <;> rfl

end Computed

/-! ## Calls -/

/-- How a tick is prepared. -/
inductive Preparation where
  | filtered
  | inputs
deriving DecidableEq

/-- One tick of the two inputs. -/
structure JoinTick (K L R : Type) [Ord K] [TransOrd K] [Ord L] [TransOrd L] [Ord R]
    [TransOrd R] where
  deltaLeft : ZSet (K × L)
  deltaRight : ZSet (K × R)
  preparation : Preparation

namespace IncrementalJoin

variable (s : IncrementalJoin K L R) (predicate : K → L → R → Bool)

/-- Prepare a tick, with every request granted. -/
def prepareTick (tick : JoinTick K L R) : JoinUpdate K L R :=
  match tick.preparation with
  | .filtered => s.prepareFiltered tick.deltaLeft tick.deltaRight predicate
  | .inputs => s.prepareInputs tick.deltaLeft tick.deltaRight

/-- Prepare a tick. There are no errors but those of its requests. -/
def checkedPrepare (tick : JoinTick K L R) :
    Effect (CallError ZSetError Empty) Answers (JoinUpdate K L R) :=
  asking (match tick.preparation with
    | .filtered => s.checkedPrepareFiltered tick.deltaLeft tick.deltaRight predicate
    | .inputs => s.checkedPrepareInputs tick.deltaLeft tick.deltaRight)

/-- A call whose update is committed or dropped. -/
def run (call : Call (JoinTick K L R)) :
    Ended (CallError ZSetError Empty) (ZSet (K × L × R)) × IncrementalJoin K L R :=
  call.run (fun s => s.checkedPrepare predicate) commit s

theorem checkedPrepare_follows (tick : JoinTick K L R) :
    Follows (s.checkedPrepare predicate tick) (.ok (s.prepareTick predicate tick)) := by
  refine .asking (E := fun _ => True) ?_
  unfold prepareTick
  cases tick.preparation with
  | filtered =>
    refine .bind (request_computes _) fun _ _ => ?_
    refine .bind (checkedGrouped_computes tick.deltaLeft) fun _ hleft => ?_
    refine .bind (checkedGrouped_computes tick.deltaRight) fun _ hright => ?_
    rw [hleft, hright]
    refine .bind (checkedDerivative_computes predicate s _ _) fun _ houtput => ?_
    refine .bind (checkedPrepareChanges_computes s.left _) fun _ hleft' => ?_
    refine .bind (checkedPrepareChanges_computes s.right _) fun _ hright' => ?_
    rw [houtput, hleft', hright']
    exact .bind (request_computes _) fun _ _ => .pure rfl
  | inputs =>
    refine .bind (request_computes _) fun _ _ => ?_
    refine .bind (checkedGrouped_computes tick.deltaLeft) fun _ hleft => ?_
    refine .bind (checkedGrouped_computes tick.deltaRight) fun _ hright => ?_
    rw [hleft, hright]
    refine .bind (checkedPrepareChanges_computes s.left _) fun _ hleft' => ?_
    refine .bind (checkedPrepareChanges_computes s.right _) fun _ hright' => ?_
    rw [hleft', hright']
    exact .bind (request_computes _) fun _ _ => .pure rfl

theorem run_transacts (call : Call (JoinTick K L R)) :
    Transacts (.ok (s.prepareTick predicate call.input)) s.commit call s (s.run predicate call) :=
  Call.run_transacts (s.checkedPrepare_follows predicate call.input)

end IncrementalJoin

/-! ## Runs -/

/-- Where a run stands: the operator, the ticks that were committed, the deltas that they returned, and
the change of the join that the ones prepared for their inputs only have made, which return an empty
delta. -/
structure JoinRun (K L R : Type) [Ord K] [TransOrd K] [Ord L] [TransOrd L] [Ord R]
    [TransOrd R] where
  join : IncrementalJoin K L R
  accepted : List (JoinTick K L R)
  returned : List (ZSet (K × L × R))
  unreported : K → L → R → Int

/-- The filtered join of the integrated inputs. -/
def filteredJoin (predicate : K → L → R → Bool) (ticks : List (JoinTick K L R)) (k : K) (l : L)
    (r : R) : Int :=
  if predicate k l r then
    (ticks.map fun tick => tick.deltaLeft.coeff (k, l)).sum *
      (ticks.map fun tick => tick.deltaRight.coeff (k, r)).sum
  else 0

namespace JoinRun

variable (predicate : K → L → R → Bool) (run : JoinRun K L R)

/-- An operator without input. -/
def start : JoinRun K L R where
  join := .new
  accepted := []
  returned := []
  unreported _ _ _ := 0

/-- One call of a run. -/
def call (call : Call (JoinTick K L R)) : JoinRun K L R :=
  match run.join.run predicate call with
  | (.committed output, join) =>
    { join
      accepted := run.accepted ++ [call.input]
      returned := run.returned ++ [output]
      unreported k l r := run.unreported k l r + if call.input.preparation = .filtered then 0 else
        join.joinCoeff predicate k l r - run.join.joinCoeff predicate k l r }
  | (_, join) => { run with join }

/-- The run of a sequence of calls. -/
def calls (calls : List (Call (JoinTick K L R))) : JoinRun K L R :=
  calls.foldl (JoinRun.call predicate) run

/-- The sum of the deltas that a run has returned. -/
def sum (k : K) (l : L) (r : R) : Int :=
  (run.returned.map fun delta => delta.coeff (k, l, r)).sum

/-- What every run keeps. -/
structure Sound : Prop where
  left : ∀ k l, coeffAt run.join.left k l =
    (run.accepted.map fun tick => tick.deltaLeft.coeff (k, l)).sum
  right : ∀ k r, coeffAt run.join.right k r =
    (run.accepted.map fun tick => tick.deltaRight.coeff (k, r)).sum
  sum : ∀ k l r, run.sum k l r + run.unreported k l r = run.join.joinCoeff predicate k l r
  reported : (∀ tick ∈ run.accepted, tick.preparation = .filtered) →
    ∀ k l r, run.unreported k l r = 0
  compact : Compact run.join.left ∧ Compact run.join.right

/-- A call commits its tick, or the run stays where it is. -/
theorem call_cases (call : Call (JoinTick K L R)) :
    run.call predicate call = run ∨
      let update := run.join.prepareTick predicate call.input
      let join := (run.join.commit update).1
      run.call predicate call =
        { join
          accepted := run.accepted ++ [call.input]
          returned := run.returned ++ [update.delta]
          unreported := fun k l r => run.unreported k l r +
            if call.input.preparation = .filtered then 0 else
              join.joinCoeff predicate k l r - run.join.joinCoeff predicate k l r } := by
  have hcall := run.join.run_transacts predicate call
  unfold JoinRun.call
  rcases hrun : run.join.run predicate call with ⟨output | _ | error, join⟩
  · rw [hrun] at hcall
    obtain ⟨update, hok, hjoin, rfl⟩ := hcall.committed output rfl
    cases hok
    cases hjoin
    exact .inr rfl
  · rw [hrun] at hcall
    exact .inl (by cases hcall.unchanged fun _ => nofun; rfl)
  · rw [hrun] at hcall
    exact .inl (by cases hcall.unchanged fun _ => nofun; rfl)

variable {predicate run}

theorem Sound.call (h : Sound predicate run) (call : Call (JoinTick K L R)) :
    Sound predicate (run.call predicate call) := by
  rcases call_cases predicate run call with hcall | hcall
  · rwa [hcall]
  rw [hcall]
  have harranged : (∀ k l, coeffAt (run.join.commit (run.join.prepareTick predicate call.input)).1.left
      k l = coeffAt run.join.left k l + call.input.deltaLeft.coeff (k, l)) ∧
      ∀ k r, coeffAt (run.join.commit (run.join.prepareTick predicate call.input)).1.right k r =
        coeffAt run.join.right k r + call.input.deltaRight.coeff (k, r) := by
    unfold IncrementalJoin.prepareTick
    cases call.input.preparation with
    | filtered | inputs =>
      exact ⟨fun k => coeffAt_publishChanges _ _ k, fun k => coeffAt_publishChanges _ _ k⟩
  constructor
  · intro k l
    simp [harranged.1, h.left]
  · intro k r
    simp [harranged.2, h.right]
  · intro k l r
    have hsum := h.sum k l r
    cases hpreparation : call.input.preparation with
    | filtered =>
      have hdelta : run.join.joinCoeff predicate k l r + _ = _ :=
        run.join.coeff_prepareFiltered call.input.deltaLeft call.input.deltaRight k l r
      simp only [JoinRun.sum, IncrementalJoin.prepareTick, hpreparation, List.map_append,
        List.sum_append, List.map_singleton, List.sum_singleton, if_true] at hsum ⊢
      rw [← hdelta]
      simp only [IncrementalJoin.commit] at hdelta ⊢
      lia
    | inputs =>
      simp only [JoinRun.sum, IncrementalJoin.prepareTick, hpreparation, List.map_append,
        List.sum_append, List.map_singleton, List.sum_singleton, reduceCtorEq, if_false,
        IncrementalJoin.prepareInputs, ZSet.coeff_new] at hsum ⊢
      lia
  · intro hfiltered k l r
    have hlast := hfiltered call.input (by simp)
    dsimp only
    rw [if_pos hlast, add_zero]
    exact h.reported (fun tick htick => hfiltered tick (List.mem_append_left _ htick)) k l r
  · exact ⟨h.compact.1.publishChanges _, h.compact.2.publishChanges _⟩

theorem sound_calls (calls : List (Call (JoinTick K L R))) :
    Sound predicate (JoinRun.start.calls predicate calls) := by
  have hstart : Sound predicate (JoinRun.start : JoinRun K L R) := by
    constructor
    · exact fun k l => coeffAt_empty k l
    · exact fun k r => coeffAt_empty k r
    · intro k l r
      simp [JoinRun.start, JoinRun.sum, IncrementalJoin.joinCoeff, IncrementalJoin.new, coeffAt_empty]
    · exact fun _ _ _ _ => rfl
    · exact ⟨Compact.empty, Compact.empty⟩
  exact calls.foldlRecOn _ hstart fun run hrun call _ => hrun.call call

end JoinRun

/-- Along every sequence of calls, the returned deltas add up to the filtered join of the integrated
inputs, except for the change that the commits prepared for their inputs only make. The snapshot is
that join in every case, and no empty group is kept. A call commits what was prepared, or it leaves the
operator as it was: when a request is refused, when the predicate fails, and when its guard is
dropped. -/
theorem join_deltas_exact (predicate : K → L → R → Bool) (calls : List (Call (JoinTick K L R))) :
    let run := JoinRun.start.calls predicate calls
    (∀ k l r, run.sum k l r + run.unreported k l r = filteredJoin predicate run.accepted k l r) ∧
      ((∀ tick ∈ run.accepted, tick.preparation = .filtered) →
        ∀ k l r, run.sum k l r = filteredJoin predicate run.accepted k l r) ∧
      (∀ k l r, (run.join.snapshotFiltered predicate).coeff (k, l, r) =
        filteredJoin predicate run.accepted k l r) ∧
      Compact run.join.left ∧ Compact run.join.right ∧
      ∀ (s : IncrementalJoin K L R) (call : Call (JoinTick K L R)),
        Transacts (.ok (s.prepareTick predicate call.input)) s.commit call s (s.run predicate call) := by
  intro run
  have hsound : JoinRun.Sound predicate run := JoinRun.sound_calls calls
  have hjoin : ∀ k l r, run.join.joinCoeff predicate k l r =
      filteredJoin predicate run.accepted k l r := by
    intro k l r
    rw [IncrementalJoin.joinCoeff, hsound.left, hsound.right]
    rfl
  refine ⟨fun k l r => ?_, fun hfiltered k l r => ?_, fun k l r => ?_, hsound.compact.1,
    hsound.compact.2, fun s call => s.run_transacts predicate call⟩
  · rw [← hjoin, hsound.sum]
  · rw [← hjoin, ← hsound.sum, hsound.reported hfiltered, add_zero]
  · rw [IncrementalJoin.coeff_snapshotFiltered, hjoin]

/-- Two rows on the left and one on the right of a key, in two calls with a refused one between them:
one of the pairs satisfies the predicate. -/
theorem join_deltas_exact_sample :
    let calls : List (Call (JoinTick Nat Nat Nat)) :=
      [⟨⟨ZSet.fromUpdates [((0, 1), 2), ((0, 2), 1)], .new, .filtered⟩, [], true⟩,
       ⟨⟨.new, ZSet.fromUpdates [((0, 9), 3)], .filtered⟩, [true, false], true⟩,
       ⟨⟨.new, ZSet.fromUpdates [((0, 5), 3)], .filtered⟩, [], true⟩]
    let run := JoinRun.start.calls (fun _ l _ => l = 1) calls
    run.sum 0 1 5 = 6 ∧ run.sum 0 2 5 = 0 ∧ run.sum 0 1 9 = 0 := by
  intro calls run
  have hexact := (join_deltas_exact (fun _ l _ => decide (l = 1)) calls).2.1
  have hfiltered : ∀ tick ∈ run.accepted, tick.preparation = .filtered := by decide +kernel
  refine ⟨?_, ?_, ?_⟩
  all_goals
    refine (hexact hfiltered _ _ _).trans ?_
    decide +kernel

/-- A commit that was prepared for its inputs only changes the join and returns an empty delta. -/
theorem join_inputs_unreported :
    let run := JoinRun.start.calls (fun (_ _ _ : Nat) => true)
      [⟨⟨ZSet.fromUpdates [((0, 0), 1)], ZSet.fromUpdates [((0, 0), 1)], .inputs⟩, [], true⟩]
    run.sum 0 0 0 ≠ filteredJoin (fun (_ _ _ : Nat) => true) run.accepted 0 0 0 := by
  decide +kernel

end FrankenGraph.Zset

import FrankenGraph.Zset.Checked

/-!
# Incremental DISTINCT

`IncrementalDistinct` (`zset/incremental.rs`): the integrated weights are kept, and a tick
returns plus one for a key whose weight becomes positive and minus one for a key whose weight stops
being positive.

Results:
* `apply_outcome`: what an accepted tick returns and keeps
* `distinct_exact`: the returned deltas add up to one on the keys of positive integrated weight
-/

namespace FrankenGraph.Zset

open Std

/-- `IncrementalDistinct` (L411-414). -/
structure IncrementalDistinct (T : Type) [Ord T] [TransOrd T] where
  counts : ZSet T

/-- `DistinctUpdate` (L488-492), without the borrow of its owner. -/
structure DistinctUpdate (T : Type) [Ord T] [TransOrd T] where
  replacements : BTreeMap T Int
  delta : ZSet T

variable {T : Type} [Ord T] [TransOrd T]

namespace IncrementalDistinct

/-- `new` (L423-427). -/
def new : IncrementalDistinct T where
  counts := .new

/-- `contains` (L431-435). -/
def contains (s : IncrementalDistinct T) (key : T) : Bool :=
  (s.counts.weight key).any fun w => decide (0 < w)

/-- One for a positive weight. -/
def threshold (w : Int) : Int :=
  if 0 < w then 1 else 0

theorem contains_eq (s : IncrementalDistinct T) (k : T) :
    s.contains k = decide (0 < s.counts.coeff k) := by
  unfold contains ZSet.coeff
  cases s.counts.weight k <;> simp

variable [LawfulEqOrd T] [DecidableEq T]

/-- The loop of `prepare` (L455-468). -/
def crossings (s : IncrementalDistinct T) (replacements : BTreeMap T Int) :
    Effect ZSetError Answers (ZSet T) :=
  Checked.localCall (replacements.toList.foldlM (fun output e => do
    Checked.step output Checked.event
    if s.contains e.1 ≠ decide (0 < e.2) then
      Checked.accumulate output e.1 (if 0 < e.2 then 1 else -1)
    else return output) .new)

/-- `prepare` (L447-475). -/
def prepare (s : IncrementalDistinct T) (delta : ZSet T) :
    Effect (ZSetError × IncrementalDistinct T) Answers (DistinctUpdate T) :=
  Checked.step s do
    Checked.event
    let replacements ← Checked.prepareIntegration s.counts delta
    let output ← s.crossings replacements
    Checked.event
    return { replacements, delta := output }

/-- `DistinctUpdate::commit` (L501-509). -/
def commit (s : IncrementalDistinct T) (update : DistinctUpdate T) :
    IncrementalDistinct T × ZSet T :=
  ({ counts := s.counts.publish update.replacements }, update.delta)

/-- `apply` (L477-484). -/
def apply (s : IncrementalDistinct T) (delta : ZSet T) :
    Effect (ZSetError × IncrementalDistinct T) Answers (IncrementalDistinct T × ZSet T) := do
  return s.commit (← s.prepare delta)

/-! ## One tick -/

/-- The output of a tick. -/
def change (s : IncrementalDistinct T) (replacements : BTreeMap T Int) : ZSet T :=
  replacements.toList.foldl (fun output e =>
    if s.contains e.1 ≠ decide (0 < e.2) then output.accumulate e.1 (if 0 < e.2 then 1 else -1)
    else output) .new

variable (s : IncrementalDistinct T)

/-- The output of a tick is the change of the thresholds. -/
theorem coeff_change (delta : ZSet T) (k : T) :
    (s.change (s.counts.prepareIntegration delta)).coeff k =
      threshold (s.counts.coeff k + delta.coeff k) - threshold (s.counts.coeff k) := by
  have hround : ∀ (output : ZSet T) (e : T × Int),
      (if s.contains e.1 ≠ decide (0 < e.2) then output.accumulate e.1 (if 0 < e.2 then 1 else -1)
        else output).coeff k =
      output.coeff k + if e.1 = k then threshold e.2 - threshold (s.counts.coeff k) else 0 := by
    intro output e
    rw [contains_eq]
    by_cases hk : e.1 = k
    · subst hk
      by_cases hold : 0 < s.counts.coeff e.1 <;> by_cases hnew : 0 < e.2 <;>
        simp [threshold, hold, hnew]
    · split_ifs <;> simp [hk]
  rw [change, ZSet.coeff_foldl hround, ZSet.coeff_new, zero_add,
    BTreeMap.sum_single _ k fun w => threshold w - threshold (s.counts.coeff k),
    ZSet.lookup_prepareIntegration]
  cases hdelta : delta.weight k with
  | none =>
    rw [ZSet.weight_eq_none.mp hdelta, add_zero, sub_self]
    rfl
  | some w =>
    rw [(ZSet.weight_eq_some.mp hdelta).2]
    rfl

theorem crossings_computes (replacements : BTreeMap T Int) :
    Checked.Computes (s.crossings replacements) (s.change replacements) := by
  refine Checked.localCall_computes (Outcome.foldlM ?_ _ _)
  intro output e
  refine .bind (Checked.step_outcome (.request trivial)).anyError fun _ _ => ?_
  split_ifs
  · exact (Checked.accumulate_outcome output e.1 _).anyError
  · exact (Checked.accumulate_outcome output e.1 _).anyError
  · exact .pure rfl

theorem prepare_outcome (delta : ZSet T) :
    Outcome (s.prepare delta) (· = ⟨s.counts.prepareIntegration delta,
      s.change (s.counts.prepareIntegration delta)⟩) fun e => e.2 = s := by
  refine Checked.step_outcome (.bind (.request trivial) fun _ _ => ?_)
  refine .bind (Checked.prepareIntegration_computes s.counts delta) fun _ hreplacements => ?_
  rw [hreplacements]
  refine .bind (s.crossings_computes _) fun _ houtput => ?_
  rw [houtput]
  exact .bind (.request trivial) fun _ _ => .pure rfl

/-- What an accepted tick returns and keeps; a tick that fails keeps everything. -/
theorem apply_outcome (delta : ZSet T) : Outcome (s.apply delta) (· = (⟨s.counts.integrate delta⟩,
      s.change (s.counts.prepareIntegration delta))) fun e => e.2 = s := by
  refine .bind (s.prepare_outcome delta) fun update hupdate => .pure ?_
  rw [hupdate]
  rfl

end IncrementalDistinct

/-! ## Runs -/

variable [LawfulEqOrd T] [DecidableEq T]

/-- A call with the answers of its limit and control. Its guard is committed or dropped. -/
structure DistinctCall (T : Type) [Ord T] [TransOrd T] where
  delta : ZSet T
  answers : Answers
  commits : Bool

/-- The returned delta of a call that was accepted and committed, and the operator after the call. -/
def DistinctCall.run (call : DistinctCall T) (s : IncrementalDistinct T) :
    Option (ZSet T) × IncrementalDistinct T :=
  if call.commits then
    match ((s.apply call.delta).exec call.answers).1 with
    | .ok (s', output) => (some output, s')
    | .error (_, s') => (none, s')
  else
    match ((s.prepare call.delta).exec call.answers).1 with
    | .ok _ => (none, s)
    | .error (_, s') => (none, s')

/-- The accepted deltas of a sequence of calls, each with the delta returned for it, and the operator
after the calls. -/
def runCalls : List (DistinctCall T) → IncrementalDistinct T →
    List (ZSet T × ZSet T) × IncrementalDistinct T
  | [], s => ([], s)
  | call :: calls, s =>
    match call.run s with
    | (some output, s') => ((call.delta, output) :: (runCalls calls s').1, (runCalls calls s').2)
    | (none, s') => runCalls calls s'

/-- A call is accepted, or it changes nothing. -/
theorem DistinctCall.run_cases (call : DistinctCall T) (s : IncrementalDistinct T) :
    call.run s = (some (s.change (s.counts.prepareIntegration call.delta)),
        ⟨s.counts.integrate call.delta⟩) ∨ call.run s = (none, s) := by
  unfold DistinctCall.run
  split_ifs
  · have houtcome := s.apply_outcome call.delta call.answers
    rcases hexec : (s.apply call.delta).exec call.answers with ⟨⟨e, s'⟩ | result, rest⟩
    · rw [hexec] at houtcome
      exact .inr (congrArg _ houtcome.1)
    · rw [hexec] at houtcome
      exact .inl (by rw [houtcome.1])
  · have houtcome := s.prepare_outcome call.delta call.answers
    rcases hexec : (s.prepare call.delta).exec call.answers with ⟨⟨e, s'⟩ | update, rest⟩
    · rw [hexec] at houtcome
      exact .inr (congrArg _ houtcome.1)
    · exact .inr rfl

/-- Along every sequence of calls, the counts are the integrated deltas and the returned deltas add up
to the change of the thresholds. -/
theorem runCalls_sound (calls : List (DistinctCall T)) (s : IncrementalDistinct T) (k : T) :
    (runCalls calls s).2.counts.coeff k =
      s.counts.coeff k + integrated ((runCalls calls s).1.map Prod.fst) k ∧
    integrated ((runCalls calls s).1.map Prod.snd) k =
      IncrementalDistinct.threshold ((runCalls calls s).2.counts.coeff k) -
        IncrementalDistinct.threshold (s.counts.coeff k) := by
  induction calls generalizing s with
  | nil => exact ⟨(add_zero _).symm, (sub_self _).symm⟩
  | cons call calls ih =>
    rw [runCalls]
    rcases call.run_cases s with hrun | hrun
    · obtain ⟨hcounts, houtputs⟩ := ih ⟨s.counts.integrate call.delta⟩
      rw [ZSet.coeff_integrate] at hcounts houtputs
      simp only [hrun, integrated, List.map_cons, List.sum_cons] at hcounts houtputs ⊢
      refine ⟨hcounts.trans (add_assoc _ _ _), ?_⟩
      rw [houtputs, IncrementalDistinct.coeff_change]
      ring
    · rw [hrun]
      exact ih s

/-- A call of which nothing is refused is accepted. -/
theorem DistinctCall.run_granted {call : DistinctCall T} (hcommits : call.commits = true)
    (hgranted : false ∉ call.answers) (s : IncrementalDistinct T) :
    (call.run s).1 = some (s.change (s.counts.prepareIntegration call.delta)) := by
  have houtcome := s.apply_outcome call.delta call.answers
  rw [DistinctCall.run, if_pos hcommits]
  rcases hexec : (s.apply call.delta).exec call.answers with ⟨⟨e, s'⟩ | result, rest⟩
  · rw [hexec] at houtcome
    exact absurd houtcome.2 hgranted
  · rw [hexec] at houtcome
    rw [houtcome.1]

/-- Incremental DISTINCT is exact: after every sequence of calls, the returned deltas add up to one on
the keys whose integrated weight is positive and to zero elsewhere. A call of which nothing is refused
is accepted and returns the change of the thresholds, and a prepare that fails, or whose guard is
dropped, leaves the counts as they were. -/
theorem distinct_exact (calls : List (DistinctCall T)) :
    (∀ k, integrated ((runCalls calls .new).1.map Prod.snd) k =
      if 0 < integrated ((runCalls calls .new).1.map Prod.fst) k then 1 else 0) ∧
    ∀ (s : IncrementalDistinct T) (call : DistinctCall T),
      ((call.run s).1 = none → (call.run s).2 = s) ∧
      (call.commits = true → false ∉ call.answers → ∃ output, (call.run s).1 = some output ∧
        ∀ k, output.coeff k = (if 0 < s.counts.coeff k + call.delta.coeff k then 1 else 0) -
          (if 0 < s.counts.coeff k then 1 else 0)) := by
  refine ⟨fun k => ?_, fun s call => ⟨fun hnone => ?_, fun hcommits hgranted => ?_⟩⟩
  · obtain ⟨hcounts, houtputs⟩ := runCalls_sound calls IncrementalDistinct.new k
    have hzero : (IncrementalDistinct.new : IncrementalDistinct T).counts.coeff k = 0 :=
      ZSet.coeff_new
    rw [hzero, zero_add] at hcounts
    rw [houtputs, hcounts, hzero]
    exact sub_zero _
  · rcases call.run_cases s with hrun | hrun
    · rw [hrun] at hnone
      cases hnone
    · rw [hrun]
  · exact ⟨_, call.run_granted hcommits hgranted s, s.coeff_change call.delta⟩

/-- Of two keys one keeps a positive weight; the other is removed more often than it was inserted, and
the output takes it back. -/
theorem distinct_exact_crossing :
    let outputs := (runCalls [⟨ZSet.fromUpdates [(7, 2), (8, 2)], [], true⟩,
      ⟨ZSet.fromUpdates [(7, -3), (8, -1)], [true], true⟩,
      ⟨ZSet.fromUpdates [(8, -1)], [true, false], true⟩] .new).1.map Prod.snd
    integrated outputs 8 = 1 ∧ integrated outputs 7 = 0 :=
  ⟨((distinct_exact _).1 8).trans (by decide), ((distinct_exact _).1 7).trans (by decide)⟩

end FrankenGraph.Zset

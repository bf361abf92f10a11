import FrankenGraph.Zset.ReachabilityTicks
import FrankenGraph.Zset.Checked

/-!
# Runs of the incremental reachability

Results:
* `prepare_cases`: which ticks are accepted, and what they stage
* `Sound.commit`: a commit keeps the invariant
* `reachability_exact`: relations, deltas and refusals along every run
-/

namespace FrankenGraph.Zset

open ZSet BTreeMap Adjacency IncrementalReachability

open Std (ExtTreeMap ExtTreeSet)
open Relation (TransGen)

variable {V : Type} [LinearOrder V]

namespace IncrementalReachability

/-! ## Calls -/

/-- `prepare` (L146-266) with its requests; those after its checks are asked as one part. -/
def checkedPrepare (s : IncrementalReachability V) (delta : ZSet (V × V)) :
    Effect (CallError ZSetError ReachabilityError) Answers (ReachabilityUpdate V) := do
  asking Checked.event
  let weights ← asking (Checked.prepareIntegration s.edges delta)
  let changes ← rounds Checked.event Checked.work checkEdge s.stageEdge weights.toList
    { inserted := ∅, removed := ∅ }
  asking Checked.work
  settling (s.finish weights changes)

/-- A call of `prepare` whose update is committed or dropped. -/
def run (s : IncrementalReachability V) (call : Call (ZSet (V × V))) :
    Ended (CallError ZSetError ReachabilityError) (ZSet (V × V)) × IncrementalReachability V :=
  call.run checkedPrepare commit s

theorem checkedPrepare_follows (s : IncrementalReachability V) (delta : ZSet (V × V)) :
    Follows (s.checkedPrepare delta) (s.prepare delta) := by
  refine .asking_bind (Checked.request_computes _) ?_
  refine .asking_bind (Checked.prepareIntegration_computes s.edges delta) ?_
  refine (rounds_follows (Checked.request_computes _) Checked.work_computes _ _ _ _).bind
    fun changes _ => ?_
  exact .asking_bind Checked.work_computes (.settling _)

variable {s : IncrementalReachability V} {delta : ZSet (V × V)}

/-- The multiplicity of an edge after a tick. -/
def nextEdge (s : IncrementalReachability V) (delta : ZSet (V × V)) (e : V × V) : Int :=
  s.edges.coeff e + delta.coeff e

/-- The edges after a tick. -/
def Next (s : IncrementalReachability V) (delta : ZSet (V × V)) (a b : V) : Prop :=
  s.nextEdge delta (a, b) ≠ 0

/-! ## The staged edges -/

/-- What the loop over the edges stages. -/
def changesOf (s : IncrementalReachability V) (delta : ZSet (V × V)) : EdgeChanges V :=
  (s.edges.prepareIntegration delta).toList.foldl s.stageEdge { inserted := ∅, removed := ∅ }

theorem stageEdge_spec (changes : EdgeChanges V) (c : (V × V) × Int) (x y : V) :
    ((s.stageEdge changes c).inserted.Has x y ↔ changes.inserted.Has x y ∨
      (c.1 = (x, y) ∧ s.edges.coeff c.1 = 0 ∧ c.2 ≠ 0)) ∧
    ((s.stageEdge changes c).removed.Has x y ↔ changes.removed.Has x y ∨
      (c.1 = (x, y) ∧ s.edges.coeff c.1 ≠ 0 ∧ c.2 = 0)) := by
  obtain ⟨⟨a, b⟩, w⟩ := c
  unfold stageEdge
  dsimp only
  rw [weight_isSome_eq]
  by_cases hpresent : s.edges.coeff (a, b) = 0 <;> by_cases hw : w = 0 <;>
    simp [hpresent, hw]

theorem foldl_stageEdge_spec (l : List ((V × V) × Int)) (changes : EdgeChanges V) (x y : V) :
    ((l.foldl s.stageEdge changes).inserted.Has x y ↔ changes.inserted.Has x y ∨
      ∃ c ∈ l, c.1 = (x, y) ∧ s.edges.coeff c.1 = 0 ∧ c.2 ≠ 0) ∧
    ((l.foldl s.stageEdge changes).removed.Has x y ↔ changes.removed.Has x y ∨
      ∃ c ∈ l, c.1 = (x, y) ∧ s.edges.coeff c.1 ≠ 0 ∧ c.2 = 0) := by
  constructor
  · exact holds_foldl (fun changes : EdgeChanges V => changes.inserted.Has x y)
      (fun changes c => (stageEdge_spec changes c x y).1) l changes
  · exact holds_foldl (fun changes : EdgeChanges V => changes.removed.Has x y)
      (fun changes c => (stageEdge_spec changes c x y).2) l changes

/-- The staged edges lead to those after the tick. -/
theorem staged_changes : Staged s (s.Next delta) (s.changesOf delta) := by
  have hweights : ∀ (x y : V) (w : Int),
      ((x, y), w) ∈ (s.edges.prepareIntegration delta).toList → w = s.nextEdge delta (x, y) :=
    fun x y w hw => (lookup_weights (ExtTreeMap.mem_toList_iff_getElem?_eq_some.mp hw)).1
  have hentry : ∀ x y, s.nextEdge delta (x, y) ≠ s.edges.coeff (x, y) →
      ((x, y), s.nextEdge delta (x, y)) ∈ (s.edges.prepareIntegration delta).toList :=
    fun x y hne => ExtTreeMap.mem_toList_iff_getElem?_eq_some.mpr (weights_of_ne hne)
  refine ⟨fun x y => ?_, fun x y => ?_⟩
  · refine (foldl_stageEdge_spec (s := s) _ _ x y).1.trans ⟨?_, fun hxy => .inr ?_⟩
    · rintro (hempty | ⟨⟨e, w⟩, hw, rfl, hold, hnew⟩)
      · exact absurd hempty not_has_empty
      · exact ⟨fun hedge => hedge hold, fun hzero => hnew ((hweights x y w hw).trans hzero)⟩
    · have hold : s.edges.coeff (x, y) = 0 := by
        by_contra hedge
        exact hxy.1 hedge
      refine ⟨_, hentry x y ?_, rfl, hold, hxy.2⟩
      rw [hold]
      exact hxy.2
  · refine (foldl_stageEdge_spec (s := s) _ _ x y).2.trans ⟨?_, fun hxy => .inr ?_⟩
    · rintro (hempty | ⟨⟨e, w⟩, hw, rfl, hold, hnew⟩)
      · exact absurd hempty not_has_empty
      · exact ⟨hold, fun hnext => hnext ((hweights x y w hw).symm.trans hnew)⟩
    · have hnew : s.nextEdge delta (x, y) = 0 := by
        by_contra hnext
        exact hxy.2 hnext
      refine ⟨_, hentry x y ?_, rfl, hxy.1, hnew⟩
      rw [hnew]
      exact hxy.1.symm

/-! ## Accepted ticks -/

/-- What an accepted tick has staged. -/
structure Prepared (s : IncrementalReachability V) (delta : ZSet (V × V))
    (update : ReachabilityUpdate V) : Prop where
  nonneg : ∀ e, 0 ≤ s.nextEdge delta e
  weights : update.weights = s.edges.prepareIntegration delta
  inserted : update.inserted = (s.changesOf delta).inserted
  removed : update.removed = (s.changesOf delta).removed
  derived : Derived s (s.Next delta) update.replacements update.additions update.delta

theorem not_has_of_isEmpty {rel : Adjacency V} (hempty : rel.isEmpty = true) (a b : V) :
    ¬ rel.Has a b := by
  rw [ExtTreeMap.isEmpty_iff] at hempty
  rw [hempty]
  exact not_has_empty

theorem checks_iff (h : Sound s) :
    (s.edges.prepareIntegration delta).toList.findSome? checkEdge = none ↔
      ∀ e, 0 ≤ s.nextEdge delta e :=
  refuses_none_iff _ h.nonneg delta

/-- A tick is accepted exactly when no multiplicity becomes negative. -/
theorem prepare_cases (h : Sound s) (delta : ZSet (V × V)) :
    (∃ update, s.prepare delta = .ok update ∧ Prepared s delta update) ∨
      (s.prepare delta = .error .negativeMultiplicity ∧ ∃ e, s.nextEdge delta e < 0) := by
  have hloop := foldlM_guarded checkEdge s.stageEdge (s.edges.prepareIntegration delta).toList
    { inserted := ∅, removed := ∅ }
  have hstaged : Staged s (s.Next delta) (s.changesOf delta) := staged_changes
  unfold prepare
  dsimp only
  rw [hloop]
  cases hchecks : (s.edges.prepareIntegration delta).toList.findSome? checkEdge with
  | some error =>
    refine .inr ⟨rfl, ?_⟩
    by_contra hnone
    push Not at hnone
    rw [(checks_iff h).mpr hnone] at hchecks
    cases hchecks
  | none =>
    have hnonneg := (checks_iff h).mp hchecks
    change (∃ update, (if (s.changesOf delta).removed.isEmpty then _ else _) = _ ∧ _) ∨ _
    refine .inl ?_
    by_cases hremoved : (s.changesOf delta).removed.isEmpty = true
    · have hgrows : ∀ a b, s.Edge a b → s.Next delta a b := by
        intro a b hab
        by_contra hnot
        exact not_has_of_isEmpty hremoved a b ((hstaged.removed_iff a b).mpr ⟨hab, hnot⟩)
      rw [if_pos hremoved]
      exact ⟨_, rfl, hnonneg, rfl, rfl, rfl, insertions_derived h hstaged hgrows⟩
    · rw [if_neg hremoved]
      by_cases hinserted : (s.changesOf delta).inserted.isEmpty = true
      · have hshrinks : ∀ a b, s.Next delta a b → s.Edge a b := by
          intro a b hab
          by_contra hnot
          exact not_has_of_isEmpty hinserted a b ((hstaged.inserted_iff a b).mpr ⟨hnot, hab⟩)
        refine ⟨_, if_pos hinserted, hnonneg, rfl, rfl, rfl, deletions_derived h hstaged hshrinks⟩
      · exact ⟨_, if_neg hinserted, hnonneg, rfl, rfl, rfl, rows_derived h hstaged⟩

theorem prepare_ok (h : Sound s) {update : ReachabilityUpdate V} (hok : s.prepare delta = .ok update) :
    Prepared s delta update := by
  rcases prepare_cases h delta with ⟨update', hok', hprepared⟩ | ⟨herror, -⟩
  · cases hok.symm.trans hok'
    exact hprepared
  · cases hok.symm.trans herror

/-! ## Commits -/

/-- Publishing a delta takes its losses from both relations and adds its gains to the second. -/
theorem foldl_publishPair (delta : ZSet (V × V)) (rows : Adjacency V × Adjacency V) (x y : V) :
    ((delta.iter.foldl publishPair rows).1.Has x y ↔ rows.1.Has x y ∧ ¬ delta.coeff (x, y) < 0) ∧
    ((delta.iter.foldl publishPair rows).2.Has y x ↔
      (rows.2.Has y x ∨ 0 < delta.coeff (x, y)) ∧ ¬ delta.coeff (x, y) < 0) := by
  let first : Adjacency V × Adjacency V → V × V → Prop := fun rows p => rows.1.Has p.1 p.2
  let second : Adjacency V × Adjacency V → V × V → Prop := fun rows p => rows.2.Has p.2 p.1
  have hfirst : ∀ rows (e : (V × V) × Int) (p : V × V), first (publishPair rows e) p =
      if e.1 = p then (first rows p ∧ ¬ e.2 < 0) else first rows p := by
    rintro rows ⟨⟨a, b⟩, w⟩ ⟨x, y⟩
    simp only [first, publishPair]
    by_cases hw : w < 0
    · simp only [hw, if_true, Adjacency.has_unlink, Prod.mk.injEq, not_true, and_false]
      split_ifs with heq <;> simp [heq]
    · simp [hw]
  have hsecond : ∀ rows (e : (V × V) × Int) (p : V × V), second (publishPair rows e) p =
      if e.1 = p then ¬ e.2 < 0 else second rows p := by
    rintro rows ⟨⟨a, b⟩, w⟩ ⟨x, y⟩
    simp only [second, publishPair]
    by_cases hw : w < 0
    · simp only [hw, if_true, Adjacency.has_unlink, Prod.mk.injEq, not_true]
      split_ifs with heq
      · simp [heq.1, heq.2]
      · simp only [eq_iff_iff, and_iff_left_iff_imp]
        exact fun _ hboth => heq ⟨hboth.2, hboth.1⟩
    · simp only [hw, if_false, Adjacency.has_link, Prod.mk.injEq, not_false_eq_true]
      split_ifs with heq
      · simp [heq.1, heq.2]
      · simp only [eq_iff_iff, or_iff_left_iff_imp]
        exact fun hboth => absurd ⟨hboth.2, hboth.1⟩ heq
  have hone := BTreeMap.foldl_pointwise (fun _ w old => old ∧ ¬ w < 0) hfirst delta.entries rows (x, y)
  have htwo := BTreeMap.foldl_pointwise (fun _ w _ => ¬ w < 0) hsecond delta.entries rows (x, y)
  change first (delta.iter.foldl publishPair rows) (x, y) = _ at hone
  change second (delta.iter.foldl publishPair rows) (x, y) = _ at htwo
  change (first (delta.iter.foldl publishPair rows) (x, y) ↔ first rows (x, y) ∧ _) ∧
    (second (delta.iter.foldl publishPair rows) (x, y) ↔ (second rows (x, y) ∨ _) ∧ _)
  rw [hone, htwo]
  cases hw : delta.weight (x, y) with
  | none =>
    have hzero := ZSet.weight_eq_none.mp hw
    change delta.entries[(x, y)]? = none at hw
    rw [hw, hzero]
    simp
  | some w =>
    obtain ⟨hne, hcoeff⟩ := ZSet.weight_eq_some.mp hw
    change delta.entries[(x, y)]? = some w at hw
    rw [hw, hcoeff]
    simp only [Option.elim_some, true_and]
    have hpos : ¬ w < 0 → 0 < w := fun hnonneg => by omega
    tauto

/-- Replacing rows; a row that is empty is removed. -/
theorem has_foldl_replace (replacements rel : Adjacency V) (a b : V) :
    (replacements.toList.foldl (fun (rel : Adjacency V) e =>
      if e.2.isEmpty then rel.erase e.1 else rel.insert e.1 e.2) rel).Has a b ↔
      (replacements[a]?).elim (rel.Has a b) (b ∈ ·) := by
  have hstep : ∀ (rel : Adjacency V) (e : V × BTreeSet V) (x : V),
      Adjacency.row (if e.2.isEmpty then rel.erase e.1 else rel.insert e.1 e.2) x =
        if e.1 = x then e.2 else rel.row x := by
    intro rel e x
    by_cases hempty : e.2.isEmpty
    · rw [if_pos hempty, Adjacency.row, BTreeMap.lookup_erase]
      split_ifs
      · exact (ExtTreeSet.isEmpty_iff.mp hempty).symm
      · rfl
    · rw [if_neg hempty, Adjacency.row_insert]
  rw [Adjacency.Has, BTreeMap.foldl_pointwise (fun _ (row : BTreeSet V) _ => row) hstep]
  cases replacements[a]? <;> rfl

section Committed

variable {update : ReachabilityUpdate V} (h : Sound s) (hprepared : Prepared s delta update)

include h hprepared

omit h in
theorem edge_commit (a b : V) : (s.commit update).1.Edge a b ↔ s.Next delta a b := by
  change (s.edges.publish update.weights).coeff (a, b) ≠ 0 ↔ _
  rw [hprepared.weights, coeff_publish_prepareIntegration]
  rfl

theorem Sound.commit : Sound (s.commit update).1 := by
  have hstaged : Staged s (s.Next delta) (s.changesOf delta) := staged_changes
  have hedge : (s.commit update).1.Edge = s.Next delta :=
    funext₂ fun a b => propext (edge_commit hprepared a b)
  have hdifference := hprepared.derived.difference
  refine ⟨fun e => ?_, fun a b => ?_, fun a b => ?_, fun a b => ?_, fun a b => ?_⟩
  · change 0 ≤ (s.edges.publish update.weights).coeff e
    rw [hprepared.weights, coeff_publish_prepareIntegration]
    exact hprepared.nonneg e
  · rw [hedge]
    refine has_extend.trans ?_
    rw [has_foldl_unlink_rows, hprepared.inserted, hprepared.removed,
      hstaged.inserted_iff, hstaged.removed_iff, h.outgoing_iff]
    tauto
  · rw [hedge]
    refine (has_foldl_link_converse _ _ b a).trans ?_
    rw [has_foldl_unlink_converse, hprepared.inserted, hprepared.removed,
      hstaged.inserted_iff, hstaged.removed_iff, h.incoming_iff]
    tauto
  · rw [hedge]
    refine (foldl_publishPair update.delta _ a b).1.trans ?_
    rw [has_extend, has_foldl_replace, hdifference.neg_iff]
    simp only [h.reachable_iff]
    exact hprepared.derived.rows_iff a b
  · rw [hedge]
    refine (foldl_publishPair update.delta _ a b).2.trans ?_
    rw [hdifference.neg_iff, hdifference.pos_iff, h.predecessors_iff]
    tauto

/-- The returned delta is the difference of the closures. -/
theorem coeff_delta (a b : V) : (s.commit update).2.coeff (a, b) =
    (if (s.commit update).1.contains a b then 1 else 0) - (if s.contains a b then 1 else 0) := by
  have hedge : (s.commit update).1.Edge = s.Next delta :=
    funext₂ fun a b => propext (edge_commit hprepared a b)
  have hnew := contains_iff (Sound.commit h hprepared) (a := a) (b := b)
  have hold := contains_iff h (a := a) (b := b)
  rw [hedge] at hnew
  have hdifference := hprepared.derived.difference
  change update.delta.coeff (a, b) = _
  by_cases hafter : TransGen (s.Next delta) a b
  · by_cases hbefore : TransGen s.Edge a b
    · rw [hdifference.same a b (iff_of_true hbefore hafter), if_pos (hnew.mpr hafter),
        if_pos (hold.mpr hbefore), sub_self]
    · rw [hdifference.gained a b hafter hbefore, if_pos (hnew.mpr hafter),
        if_neg fun hc => hbefore (hold.mp hc), sub_zero]
  · by_cases hbefore : TransGen s.Edge a b
    · rw [hdifference.lost a b hbefore hafter, if_neg fun hc => hafter (hnew.mp hc),
        if_pos (hold.mpr hbefore), zero_sub]
    · rw [hdifference.same a b (iff_of_false hbefore hafter), if_neg fun hc => hafter (hnew.mp hc),
        if_neg fun hc => hbefore (hold.mp hc), sub_self]

end Committed

theorem sound_new : Sound (new : IncrementalReachability V) := by
  have hedge : ∀ a b : V, ¬ (new : IncrementalReachability V).Edge a b := fun a b hab =>
    hab coeff_new
  have hreach : ∀ a b : V, ¬ TransGen (new : IncrementalReachability V).Edge a b := by
    intro a b hab
    obtain ⟨x, -, hxb⟩ := Relation.TransGen.tail'_iff.mp hab
    exact hedge x b hxb
  have hnone : ∀ a b : V, ¬ (∅ : Adjacency V).Has a b := fun a b => not_has_empty
  exact ⟨fun e => le_of_eq coeff_new.symm, fun a b => iff_of_false (hnone a b) (hedge a b),
    fun a b => iff_of_false (hnone b a) (hedge a b),
    fun a b => iff_of_false (hnone a b) (hreach a b),
    fun a b => iff_of_false (hnone b a) (hreach a b)⟩

end IncrementalReachability

/-! ## Runs -/

/-- The integrated multiplicity of a directed edge. -/
def directedBag (inputs : List (ZSet (V × V))) (a b : V) : Int :=
  (inputs.map fun delta => delta.coeff (a, b)).sum

/-- A step over an edge of positive multiplicity. -/
def directedEdge (inputs : List (ZSet (V × V))) (a b : V) : Prop :=
  0 < directedBag inputs a b

/-- The states that committed ticks lead to, with their inputs. A tick that fails, or whose guard is
dropped, publishes nothing. -/
inductive ReachabilityRuns : List (ZSet (V × V)) → IncrementalReachability V → Prop where
  | start : ReachabilityRuns [] .new
  | commit {inputs : List (ZSet (V × V))} {s : IncrementalReachability V} {delta : ZSet (V × V)}
      {update : ReachabilityUpdate V} (hrun : ReachabilityRuns inputs s)
      (hok : s.prepare delta = .ok update) :
      ReachabilityRuns (inputs ++ [delta]) (s.commit update).1

namespace ReachabilityRuns

variable {inputs : List (ZSet (V × V))} {s : IncrementalReachability V}

theorem sound (h : ReachabilityRuns inputs s) :
    s.Sound ∧ ∀ a b, s.edges.coeff (a, b) = directedBag inputs a b := by
  induction h with
  | start => exact ⟨sound_new, fun a b => coeff_new⟩
  | @commit inputs s delta update hrun hok ih =>
    obtain ⟨hsound, hedges⟩ := ih
    have hprepared := prepare_ok hsound hok
    refine ⟨hsound.commit hprepared, fun a b => ?_⟩
    change (s.edges.publish update.weights).coeff (a, b) = _
    rw [hprepared.weights, coeff_publish_prepareIntegration, hedges]
    simp [directedBag]

theorem edge_eq (h : ReachabilityRuns inputs s) : s.Edge = directedEdge inputs := by
  obtain ⟨hsound, hedges⟩ := h.sound
  refine funext₂ fun a b => propext ?_
  have hnonneg := hsound.nonneg (a, b)
  rw [IncrementalReachability.Edge, directedEdge, hedges]
  rw [hedges] at hnonneg
  omega

end ReachabilityRuns

/-- Along every run: the retained relation joins exactly the pairs with a nonempty path over edges of
positive multiplicity, the converse relation and the adjacency in both directions agree with it, and
the delta that a commit returns is the difference of the closures. A call that fails, or whose guard is
dropped, leaves every field as it was; when no request is refused, it is accepted exactly when it
leaves no multiplicity negative. -/
theorem reachability_exact (inputs : List (ZSet (V × V))) (s : IncrementalReachability V)
    (h : ReachabilityRuns inputs s) :
    (∀ a b, s.contains a b = true ↔ TransGen (directedEdge inputs) a b) ∧
    (∀ a b, s.predecessors.Has b a ↔ s.contains a b = true) ∧
    (∀ a b, s.outgoing.Has a b ↔ directedEdge inputs a b) ∧
    (∀ a b, s.incoming.Has b a ↔ directedEdge inputs a b) ∧
    ∀ call : Call (ZSet (V × V)), Transacts (s.prepare call.input) s.commit call s (s.run call) ∧
      (∀ output, (s.run call).1 = .committed output → ∀ a b, output.coeff (a, b) =
        (if (s.run call).2.contains a b then 1 else 0) - (if s.contains a b then 1 else 0)) ∧
      ((∀ output, (s.run call).1 ≠ .committed output) → (s.run call).2 = s) ∧
      (false ∉ call.answers → ((∀ error, (s.run call).1 ≠ .failed error) ↔
        ∀ a b, 0 ≤ directedBag (inputs ++ [call.input]) a b)) := by
  obtain ⟨hsound, hedges⟩ := h.sound
  have hcontains : ∀ a b, s.contains a b = true ↔ TransGen (directedEdge inputs) a b := fun a b => by
    rw [IncrementalReachability.contains_iff hsound, h.edge_eq]
  have hnext : ∀ delta a b, s.nextEdge delta (a, b) = directedBag (inputs ++ [delta]) a b := by
    intro delta a b
    rw [IncrementalReachability.nextEdge, hedges]
    simp [directedBag]
  have hcall : ∀ call, Transacts _ _ call s (s.run call) := fun call =>
    Call.run_transacts (s.checkedPrepare_follows call.input)
  refine ⟨hcontains, fun a b => ?_, fun a b => ?_, fun a b => ?_, fun call =>
    ⟨hcall call, fun output hcommitted => ?_, (hcall call).unchanged, fun hgranted => ?_⟩⟩
  · rw [hcontains, hsound.predecessors_iff, h.edge_eq]
  · rw [hsound.outgoing_iff, h.edge_eq]
  · rw [hsound.incoming_iff, h.edge_eq]
  · obtain ⟨update, hok, hstate, rfl⟩ := (hcall call).committed output hcommitted
    rw [hstate]
    exact IncrementalReachability.coeff_delta hsound (IncrementalReachability.prepare_ok hsound hok)
  · rw [(hcall call).accepted_iff hgranted]
    rcases IncrementalReachability.prepare_cases hsound call.input with
      ⟨update, hok, hprepared⟩ | ⟨herror, e, hneg⟩
    · exact ⟨fun _ a b => hnext call.input a b ▸ hprepared.nonneg (a, b), fun _ => ⟨update, hok⟩⟩
    · constructor
      · rintro ⟨update, hok⟩
        cases hok.symm.trans herror
      · intro hnonneg
        rw [hnext call.input e.1 e.2] at hneg
        exact absurd (hnonneg e.1 e.2) (not_le.mpr hneg)

/-- Two edges of a path are inserted in one tick, which joins its ends and nothing backwards. -/
theorem reachability_exact_sample : ∃ s : IncrementalReachability Nat,
      ReachabilityRuns [ZSet.fromUpdates [((1, 2), 1), ((2, 3), 1)]] s ∧
        TransGen (directedEdge [ZSet.fromUpdates [((1, 2), 1), ((2, 3), 1)]]) 1 3 ∧
        ¬ TransGen (directedEdge [ZSet.fromUpdates [((1, 2), 1), ((2, 3), 1)]]) 3 1 := by
  obtain ⟨update, hok, hjoined, hnot⟩ : ∃ update, (IncrementalReachability.new :
      IncrementalReachability Nat).prepare (ZSet.fromUpdates [((1, 2), 1), ((2, 3), 1)]) =
        .ok update ∧ (IncrementalReachability.new.commit update).1.contains 1 3 = true ∧
        ¬ (IncrementalReachability.new.commit update).1.contains 3 1 = true :=
    ⟨_, rfl, by decide +kernel, by decide +kernel⟩
  have hrun := @ReachabilityRuns.commit Nat _ [] .new _ update .start hok
  have hexact := (reachability_exact _ _ hrun).1
  exact ⟨_, hrun, (hexact 1 3).mp hjoined, fun hpath => hnot ((hexact 3 1).mpr hpath)⟩

end FrankenGraph.Zset

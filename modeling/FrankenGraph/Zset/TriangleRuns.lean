import FrankenGraph.Zset.TriangleCounts
import FrankenGraph.Zset.Checked

/-!
# Runs of the incremental triangles

Every state that committed ticks lead to keeps the multiplicities of the unordered pairs of its
input, their symmetric adjacency, and the number of triangles; and a tick is refused exactly when a
multiplicity would become negative.

Results:
* `Sound.staged`: what the first loop of a tick stages
* `Sound.commit`: a commit keeps the invariant
* `checkedPrepare_follows`: a refused request only ends a tick earlier
* `triangles_exact`: totals, snapshots, deltas and refusals along every run
-/

namespace FrankenGraph.Zset

open ZSet Adjacency IncrementalTriangles List

open Std (ExtTreeMap ExtTreeSet)

variable {V : Type} [LinearOrder V]

namespace IncrementalTriangles

/-! ## Calls -/

/-- The check of an edge (L166-168). -/
def checkEdge (change : (V × V) × Int) : Option TriangleError :=
  if change.2 < 0 then some .negativeMultiplicity else none

/-- `prepare` (L151-258) with its requests; those of its second loop are asked as one part. -/
def checkedPrepare (s : IncrementalTriangles V) (delta : ZSet (V × V)) :
    Effect (CallError ZSetError TriangleError) Answers (TriangleUpdate V) := do
  asking Checked.event
  let normalized ← asking (Checked.map delta fun e => canonical e.1 e.2)
  let weights ← asking (Checked.prepareIntegration s.edges normalized)
  let (effective, inserted) ← rounds Checked.event Checked.work checkEdge s.stageEdge weights.toList
    (∅, ∅)
  asking Checked.work
  let output := s.triangleChanges weights inserted effective
  let total := s.total + output.totalWeight
  asking Checked.event
  return { weights, inserted, total, delta := output }

/-- A call of `prepare` whose update is committed or dropped. -/
def run (s : IncrementalTriangles V) (call : Call (ZSet (V × V))) :
    Ended (CallError ZSetError TriangleError) (ZSet (V × V × V)) × IncrementalTriangles V :=
  call.run checkedPrepare commit s

theorem checkedPrepare_follows (s : IncrementalTriangles V) (delta : ZSet (V × V)) :
    Follows (s.checkedPrepare delta) (s.prepare delta) := by
  have hround : guarded checkEdge s.stageEdge = fun staged change =>
      if change.2 < 0 then .error .negativeMultiplicity else .ok (s.stageEdge staged change) := by
    funext staged change
    unfold guarded checkEdge
    split_ifs <;> rfl
  refine .asking_bind (Checked.request_computes _) (.asking_bind (Checked.map_computes delta _) ?_)
  refine .asking_bind (Checked.prepareIntegration_computes s.edges _) ?_
  refine .bind ?_ fun staged _ => ?_
  · rw [← hround]
    exact rounds_follows (Checked.request_computes _) Checked.work_computes _ _ _ _
  · exact .asking_bind Checked.work_computes (.asking_bind (Checked.request_computes _) .pure)

/-! ## The loops of a tick -/

section Loops

variable {s : IncrementalTriangles V}

theorem stageEdge_eq (staged : BTreeSet (V × V) × Adjacency V) (d : V × V) (w : Int) :
    s.stageEdge staged (d, w) = if d.1 = d.2 then staged else
      (if s.quantifier = .all ∨ ¬ (s.edges.coeff d ≠ 0 ↔ w ≠ 0) then staged.1.insert d else staged.1,
        if s.edges.coeff d = 0 ∧ w ≠ 0 then (staged.2.link d.1 d.2).link d.2 d.1 else staged.2) := by
  unfold stageEdge
  dsimp only
  rw [weight_isSome_eq]
  by_cases hall : s.quantifier = .all <;> by_cases hold : s.edges.coeff d = 0 <;>
    by_cases hnew : w = 0 <;> simp [hall, hold, hnew]

theorem mem_foldl_stageEdge (l : List ((V × V) × Int)) (staged : BTreeSet (V × V) × Adjacency V)
    (e : V × V) :
    e ∈ (l.foldl s.stageEdge staged).1 ↔ e ∈ staged.1 ∨ ∃ c ∈ l, c.1 = e ∧ e.1 ≠ e.2 ∧
      (s.quantifier = .all ∨ ¬ (s.edges.coeff e ≠ 0 ↔ c.2 ≠ 0)) := by
  refine holds_foldl (fun staged : BTreeSet (V × V) × Adjacency V => e ∈ staged.1) ?_ l staged
  rintro staged ⟨d, w⟩
  rw [stageEdge_eq]
  by_cases hd : d = e
  · subst hd
    split_ifs with hloop heffective <;> simp_all
  · split_ifs <;> simp [hd]

theorem has_foldl_stageEdge (l : List ((V × V) × Int)) (staged : BTreeSet (V × V) × Adjacency V)
    (a b : V) :
    (l.foldl s.stageEdge staged).2.Has a b ↔ staged.2.Has a b ∨ ∃ c ∈ l, a ≠ b ∧
      (c.1 = (a, b) ∨ c.1 = (b, a)) ∧ s.edges.coeff c.1 = 0 ∧ c.2 ≠ 0 := by
  refine holds_foldl (fun staged : BTreeSet (V × V) × Adjacency V => staged.2.Has a b) ?_ l staged
  rintro staged ⟨⟨x, y⟩, w⟩
  rw [stageEdge_eq]
  by_cases hloop : x = y
  · rw [if_pos hloop]
    subst hloop
    refine ⟨.inl, ?_⟩
    rintro (hold | ⟨hab, hxy | hxy, -⟩)
    · exact hold
    · cases hxy
      exact absurd rfl hab
    · cases hxy
      exact absurd rfl hab
  · rw [if_neg hloop]
    dsimp only
    by_cases hinsert : s.edges.coeff (x, y) = 0 ∧ w ≠ 0
    · rw [if_pos hinsert, has_link, has_link, or_assoc]
      simp only [Prod.mk.injEq]
      refine or_congr_right ⟨?_, ?_⟩
      · rintro (⟨rfl, rfl⟩ | ⟨rfl, rfl⟩)
        · exact ⟨hloop, .inl ⟨rfl, rfl⟩, hinsert⟩
        · exact ⟨Ne.symm hloop, .inr ⟨rfl, rfl⟩, hinsert⟩
      · rintro ⟨-, ⟨rfl, rfl⟩ | ⟨rfl, rfl⟩, -⟩
        · exact .inl ⟨rfl, rfl⟩
        · exact .inr ⟨rfl, rfl⟩
    · rw [if_neg hinsert]
      refine ⟨.inl, ?_⟩
      rintro (hold | ⟨-, -, hnot⟩)
      · exact hold
      · exact absurd hnot hinsert

/-- The pairs that a commit removes from the adjacency. -/
theorem has_foldl_removed (l : List ((V × V) × Int)) (neighbors : Adjacency V) (a b : V) :
    (l.foldl (fun (neighbors : Adjacency V) e =>
      if e.2 = 0 ∧ e.1.1 ≠ e.1.2 then
        (neighbors.unlink e.1.1 e.1.2).unlink e.1.2 e.1.1
      else neighbors) neighbors).Has a b ↔ neighbors.Has a b ∧ ∀ c ∈ l, a ≠ b →
        c.1 = (a, b) ∨ c.1 = (b, a) → c.2 ≠ 0 := by
  induction l generalizing neighbors with
  | nil => simp
  | cons c l ih =>
    rw [foldl_cons, ih, forall_mem_cons, ← and_assoc]
    refine and_congr_left fun _ => ?_
    obtain ⟨⟨x, y⟩, w⟩ := c
    dsimp only
    split_ifs with hremove
    · rw [has_unlink, has_unlink, and_assoc]
      refine and_congr_right fun _ => ⟨?_, ?_⟩
      · rintro ⟨h₁, h₂⟩ hab (hxy | hxy) <;> cases hxy
        · exact absurd ⟨rfl, rfl⟩ h₁
        · exact absurd ⟨rfl, rfl⟩ h₂
      · intro h
        refine ⟨?_, ?_⟩
        · rintro ⟨rfl, rfl⟩
          exact h hremove.2 (.inl rfl) hremove.1
        · rintro ⟨rfl, rfl⟩
          exact h (Ne.symm hremove.2) (.inr rfl) hremove.1
    · refine ⟨fun h => ⟨h, ?_⟩, fun h => h.1⟩
      rintro hab (hxy | hxy) hw <;> cases hxy
      · exact hremove ⟨hw, hab⟩
      · exact hremove ⟨hw, Ne.symm hab⟩

end Loops

/-! ## The invariant -/

/-- What every state that committed ticks lead to satisfies: it keeps the multiplicities of the
unordered pairs and their adjacency, and the total of its own snapshot. -/
structure Sound (s : IncrementalTriangles V) : Prop where
  nonneg : ∀ e, 0 ≤ s.edges.coeff e
  ordered : ∀ e, s.edges.coeff e ≠ 0 → e.1 ≤ e.2
  neighbors_iff : ∀ a b, s.neighbors.Has a b ↔ a ≠ b ∧ s.edges.coeff (canonical a b) ≠ 0

theorem sound_new (quantifier : TriangleQuantifier) :
    Sound (new quantifier : IncrementalTriangles V) where
  nonneg e := le_of_eq coeff_new.symm
  ordered e h := absurd coeff_new h
  neighbors_iff a b := by
    refine ⟨fun h => absurd h not_has_empty, fun h => absurd coeff_new h.2⟩

variable {s : IncrementalTriangles V}

/-- The multiplicities after a tick. -/
def next (s : IncrementalTriangles V) (delta : ZSet (V × V)) (e : V × V) : Int :=
  s.edges.coeff e + (normalized delta).coeff e

namespace Sound

variable {delta : ZSet (V × V)} (h : Sound s)

include h

theorem next_ordered {e : V × V} (hne : s.next delta e ≠ 0) : e.1 ≤ e.2 := by
  by_cases hold : s.edges.coeff e = 0
  · rw [next, hold, zero_add] at hne
    exact le_of_coeff_normalized hne
  · exact h.ordered e hold

omit h in
/-- The pairs that the first loop inserts are those that become present. -/
theorem has_inserted (a b : V) :
    ((s.edges.prepareIntegration (normalized delta)).toList.foldl s.stageEdge (∅, ∅)).2.Has a b ↔
      a ≠ b ∧ s.edges.coeff (canonical a b) = 0 ∧ s.next delta (canonical a b) ≠ 0 := by
  rw [has_foldl_stageEdge]
  constructor
  · rintro (hempty | ⟨c, hc, hab, hpair, hold, hnew⟩)
    · exact absurd hempty not_has_empty
    · obtain ⟨h₁, h₂⟩ := weights_pair hc hpair
      rw [h₁] at hold
      rw [h₂] at hnew
      exact ⟨hab, hold, hnew⟩
  · rintro ⟨hab, hold, hnew⟩
    have hmem := mem_weights (a := a) (b := b) (hold ▸ hnew)
    exact .inr ⟨_, hmem, hab, canonical_pair a b, hold, hnew⟩

theorem staged (hnonneg : ∀ e, 0 ≤ s.next delta e) :
    Staged s (s.edges.prepareIntegration (normalized delta))
      ((s.edges.prepareIntegration (normalized delta)).toList.foldl s.stageEdge (∅, ∅)).2
      ((s.edges.prepareIntegration (normalized delta)).toList.foldl s.stageEdge (∅, ∅)).1
      (s.next delta) where
  old_nonneg := h.nonneg
  next_nonneg := hnonneg
  weights_eq e := by
    rw [← coeff_publish, coeff_publish_prepareIntegration]
    rfl
  effective_lt e he := by
    rw [mem_foldl_stageEdge] at he
    rcases he with he | ⟨c, hc, rfl, hne, -⟩
    · exact absurd he ExtTreeSet.not_mem_empty
    · have hle := le_of_coeff_normalized
        (lookup_weights (ExtTreeMap.mem_toList_iff_getElem?_eq_some.mp hc)).2
      exact lt_of_le_of_ne hle hne
  unchanged e hlt hnot := by
    rw [mem_foldl_stageEdge, not_or] at hnot
    have hmem : s.next delta e ≠ s.edges.coeff e →
        ¬ (s.quantifier = .all ∨ ¬ (s.edges.coeff e ≠ 0 ↔ s.next delta e ≠ 0)) := by
      intro hne hchanged
      exact hnot.2 ⟨(e, s.next delta e), ExtTreeMap.mem_toList_iff_getElem?_eq_some.mpr
        (weights_of_ne hne), rfl, hlt.ne, hchanged⟩
    by_cases heq : s.next delta e = s.edges.coeff e
    · exact ⟨fun _ => heq, by rw [heq]⟩
    · have hboth := hmem heq
      push Not at hboth
      exact ⟨fun hall => absurd hall hboth.1, by tauto⟩
  adjacent_iff a b := by
    rw [h.neighbors_iff, has_inserted]
    tauto
  disjoint a b hold hnew := by
    rw [h.neighbors_iff] at hold
    rw [has_inserted] at hnew
    exact hold.2 hnew.2.1

end Sound

/-- A tick is refused exactly when a multiplicity would become negative. -/
theorem prepare_eq (s : IncrementalTriangles V) (delta : ZSet (V × V)) : s.prepare delta =
      if ∃ c ∈ (s.edges.prepareIntegration (normalized delta)).toList, c.2 < 0 then
        .error .negativeMultiplicity
      else
        let weights := s.edges.prepareIntegration (normalized delta)
        let staged := weights.toList.foldl s.stageEdge (∅, ∅)
        let output := s.triangleChanges weights staged.2 staged.1
        .ok { weights, inserted := staged.2, total := s.total + output.totalWeight,
              delta := output } := by
  unfold prepare
  have hguard := foldlM_guard (fun c : (V × V) × Int => c.2 < 0) TriangleError.negativeMultiplicity
    s.stageEdge (s.edges.prepareIntegration (normalized delta)).toList (∅, ∅)
  change ((s.edges.prepareIntegration (normalized delta)).toList.foldlM
      (fun staged change => if change.2 < 0 then .error .negativeMultiplicity
        else .ok (s.stageEdge staged change)) (∅, ∅) >>= _ :
    Except TriangleError (TriangleUpdate V)) = _
  rw [hguard]
  split_ifs
  · rfl
  · rfl

variable (h : Sound s)
include h

theorem prepare_eq_error (delta : ZSet (V × V)) :
    s.prepare delta = .error .negativeMultiplicity ↔ ∃ e, s.next delta e < 0 := by
  rw [prepare_eq]
  split_ifs with hneg
  · obtain ⟨c, hc, hlt⟩ := hneg
    refine ⟨fun _ => ⟨c.1, ?_⟩, fun _ => rfl⟩
    have hnext := (lookup_weights (ExtTreeMap.mem_toList_iff_getElem?_eq_some.mp hc)).1
    rw [next, ← hnext]
    exact hlt
  · refine ⟨fun herror => absurd herror (by simp), ?_⟩
    rintro ⟨e, hlt⟩
    refine absurd ⟨(e, s.next delta e), ExtTreeMap.mem_toList_iff_getElem?_eq_some.mpr ?_, hlt⟩ hneg
    have hnonneg := h.nonneg e
    exact weights_of_ne (hlt.trans_le hnonneg).ne

variable {delta : ZSet (V × V)} {update : TriangleUpdate V}

section

variable (hok : s.prepare delta = .ok update)
include hok

theorem prepare_eq_ok :
    (∀ e, 0 ≤ s.next delta e) ∧ update.weights = s.edges.prepareIntegration (normalized delta) ∧
      update.inserted = (update.weights.toList.foldl s.stageEdge (∅, ∅)).2 ∧
      update.delta = s.triangleChanges update.weights update.inserted
        (update.weights.toList.foldl s.stageEdge (∅, ∅)).1 ∧
      update.total = s.total + update.delta.totalWeight := by
  have hnonneg : ∀ e, 0 ≤ s.next delta e := by
    intro e
    by_contra hneg
    have herror := (prepare_eq_error h delta).mpr ⟨e, lt_of_not_ge hneg⟩
    cases herror.symm.trans hok
  rw [prepare_eq] at hok
  split_ifs at hok
  cases hok
  exact ⟨hnonneg, rfl, rfl, rfl, rfl⟩

/-! ## Commits and snapshots -/

theorem coeff_commit (e : V × V) : (s.commit update).1.edges.coeff e = s.next delta e := by
  obtain ⟨-, hweights, -⟩ := prepare_eq_ok h hok
  change (s.edges.publish update.weights).coeff e = _
  rw [hweights, coeff_publish_prepareIntegration]
  rfl

theorem Sound.commit : Sound (s.commit update).1 where
  nonneg e := by
    rw [coeff_commit h hok]
    exact (prepare_eq_ok h hok).1 e
  ordered e hne := by
    rw [coeff_commit h hok] at hne
    exact h.next_ordered hne
  neighbors_iff a b := by
    obtain ⟨-, hweights, hinserted, -⟩ := prepare_eq_ok h hok
    rw [coeff_commit h hok]
    refine has_extend.trans ?_
    rw [has_foldl_removed, hinserted, hweights, has_inserted, h.neighbors_iff]
    constructor
    · rintro (⟨⟨hab, hold⟩, hkept⟩ | ⟨hab, -, hnew⟩)
      · refine ⟨hab, fun hzero => ?_⟩
        have hne : s.next delta (canonical a b) ≠ s.edges.coeff (canonical a b) := by
          rw [hzero]
          exact hold.symm
        exact hkept _ (mem_weights hne) hab (canonical_pair a b) hzero
      · exact ⟨hab, hnew⟩
    · rintro ⟨hab, hnew⟩
      by_cases hold : s.edges.coeff (canonical a b) = 0
      · exact .inr ⟨hab, hold, hnew⟩
      · refine .inl ⟨⟨hab, hold⟩, fun c hc _ hpair => ?_⟩
        rw [(weights_pair hc hpair).2]
        exact hnew

theorem Sound.coeff_delta (t : V × V × V) : update.delta.coeff t = if Increasing t then
        tripleWeight s.quantifier (s.next delta) t - tripleWeight s.quantifier s.edges.coeff t
      else 0 := by
  obtain ⟨hnonneg, hweights, hinserted, hdelta, -⟩ := prepare_eq_ok h hok
  rw [hdelta, hinserted, hweights]
  exact (h.staged hnonneg).coeff_triangleChanges t

end

omit h in
/-- What a retained edge adds to a triple of the snapshot. -/
theorem coeff_snapshot_sum (s : IncrementalTriangles V) (t : V × V × V) :
    s.snapshot.coeff t = (s.edges.iter.map fun e =>
      if e.1.1 = e.1.2 then 0 else
        ((candidates s.neighbors ∅ (s.scanProbe ∅ e.1).1).map fun third =>
          if third ≤ e.1.2 ∨ adjacent s.neighbors ∅ (s.scanProbe ∅ e.1).2 third = false then 0
          else if (e.1.1, e.1.2, third) = t then s.triangleWeight t none else 0).sum).sum := by
  unfold snapshot
  refine Eq.trans (coeff_foldl ?_ _ _) (by rw [coeff_new, zero_add])
  rintro output ⟨⟨a, b⟩, w⟩
  dsimp only
  split_ifs with hab
  · exact (add_zero _).symm
  · generalize s.scanProbe ∅ (a, b) = ends
    refine coeff_foldl ?_ _ _
    intro output third
    split_ifs with hskip ht
    · exact (add_zero _).symm
    · rw [coeff_accumulate, if_pos ht, ht]
    · rw [coeff_accumulate, if_neg ht]

theorem Sound.triangleWeight_none (t : V × V × V) :
    s.triangleWeight t none = tripleWeight s.quantifier s.edges.coeff t :=
  triangleWeight_eq h.nonneg

omit h in
/-- What the edge of the first two vertices of a triple adds to it. -/
def snapshotRow (s : IncrementalTriangles V) (t : V × V × V) : Int :=
  if t.1 = t.2.1 then 0 else
    ((candidates s.neighbors ∅ (s.scanProbe ∅ (t.1, t.2.1)).1).map fun third =>
      if third ≤ t.2.1 ∨ adjacent s.neighbors ∅ (s.scanProbe ∅ (t.1, t.2.1)).2 third = false then 0
      else if (t.1, t.2.1, third) = t then s.triangleWeight t none else 0).sum

theorem Sound.snapshotRow_eq {x y z : V} (hxy : x ≤ y) : s.snapshotRow (x, y, z) =
      if Increasing (x, y, z) then tripleWeight s.quantifier s.edges.coeff (x, y, z) else 0 := by
  have hdisjoint : ∀ a b, s.neighbors.Has a b → ¬ (∅ : Adjacency V).Has a b :=
    fun a b _ => not_has_empty
  have hends := s.scanProbe_cases ∅ (x, y)
  unfold snapshotRow
  dsimp only
  generalize s.scanProbe ∅ (x, y) = ends at hends ⊢
  by_cases heq : x = y
  · have hnot : ¬ Increasing (x, y, z) := fun hinc => hinc.1.ne heq
    rw [if_pos heq, if_neg hnot]
  rw [if_neg heq, sum_eq_single_of_nodup (nodup_candidates hdisjoint _) _ z]
  · by_cases hyz : z ≤ y
    · have hnot : ¬ Increasing (x, y, z) := fun hinc => hinc.2.not_ge hyz
      simp [hyz, hnot]
    · have hlt : y < z := lt_of_not_ge hyz
      have hinc : Increasing (x, y, z) := ⟨lt_of_le_of_ne hxy heq, hlt⟩
      have hxz : x < z := lt_of_le_of_lt hxy hlt
      rw [if_pos hinc, h.triangleWeight_none]
      simp only [hyz, false_or, if_true, ← Bool.not_eq_true, mem_candidates, adjacent_iff_has,
        not_has_empty, or_false, h.neighbors_iff]
      by_cases hx : s.edges.coeff (x, z) = 0
      · rw [tripleWeight_eq_zero (by simp [sides] : (x, z) ∈ sides (x, y, z)) hx]
        simp
      by_cases hy : s.edges.coeff (y, z) = 0
      · rw [tripleWeight_eq_zero (by simp [sides] : (y, z) ∈ sides (x, y, z)) hy]
        simp
      rcases hends with rfl | rfl <;>
        simp [(canonical_of_lt hxz).1, (canonical_of_lt hlt).1, hx, hy, hxz.ne, hlt.ne]
  · intro third _ hthird
    simp [hthird]

theorem Sound.coeff_snapshot (t : V × V × V) : s.snapshot.coeff t =
      if Increasing t then tripleWeight s.quantifier s.edges.coeff t else 0 := by
  obtain ⟨x, y, z⟩ := t
  rw [coeff_snapshot_sum, map_congr_left (g := fun e =>
    if e.1 = (x, y) then s.snapshotRow (x, y, z) else 0)]
  · refine (BTreeMap.sum_single s.edges.entries (x, y) fun _ => s.snapshotRow (x, y, z)).trans ?_
    change (s.edges.weight (x, y)).elim 0 _ = _
    cases hw : s.edges.weight (x, y) with
    | none =>
      have hzero := weight_eq_none.mp hw
      rw [tripleWeight_eq_zero (by simp [sides] : (x, y) ∈ sides (x, y, z)) hzero, ite_self, Option.elim_none]
    | some w =>
      obtain ⟨hne, heq⟩ := weight_eq_some.mp hw
      exact h.snapshotRow_eq (h.ordered (x, y) (heq ▸ hne))
  · rintro ⟨⟨a, b⟩, w⟩ -
    dsimp only
    by_cases hab : (a, b) = (x, y)
    · cases hab
      rw [if_pos rfl]
      rfl
    · rw [if_neg hab]
      split_ifs
      · rfl
      · refine sum_eq_zero fun c hc => ?_
        obtain ⟨third, -, rfl⟩ := mem_map.mp hc
        rw [Prod.mk.injEq] at hab
        split_ifs with hskip ht
        · rfl
        · simp only [Prod.mk.injEq] at ht
          exact absurd ⟨ht.1, ht.2.1⟩ hab
        · rfl

end IncrementalTriangles

/-! ## Runs -/

/-- The states that committed ticks lead to, with their inputs. A tick that is refused, or whose
guard is dropped, publishes nothing. -/
inductive TriangleRuns (quantifier : TriangleQuantifier) :
    List (ZSet (V × V)) → IncrementalTriangles V → Prop where
  | start : TriangleRuns quantifier [] (.new quantifier)
  | commit {inputs : List (ZSet (V × V))} {s : IncrementalTriangles V} {delta : ZSet (V × V)}
      {update : TriangleUpdate V} (hrun : TriangleRuns quantifier inputs s)
      (hok : s.prepare delta = .ok update) :
      TriangleRuns quantifier (inputs ++ [delta]) (s.commit update).1

variable {quantifier : TriangleQuantifier} {inputs : List (ZSet (V × V))}
  {s : IncrementalTriangles V}

section

variable (h : TriangleRuns quantifier inputs s)
include h

theorem TriangleRuns.sound : s.Sound ∧ s.quantifier = quantifier ∧
      ∀ a b, s.edges.coeff (canonical a b) = bag inputs a b := by
  induction h with
  | start => exact ⟨IncrementalTriangles.sound_new quantifier, rfl, fun a b => ZSet.coeff_new⟩
  | commit hrun hok ih =>
    obtain ⟨hsound, hquantifier, hbag⟩ := ih
    refine ⟨hsound.commit hok, hquantifier, fun a b => ?_⟩
    rw [IncrementalTriangles.coeff_commit hsound hok, IncrementalTriangles.next, hbag,
      coeff_normalized, bag_concat]

omit h in
/-- The weight of a triple by the integrated multiplicities of its pairs. -/
theorem tripleWeight_bag {weight : V × V → Int} {inputs : List (ZSet (V × V))}
    (hbag : ∀ a b, weight (canonical a b) = bag inputs a b) {t : V × V × V} (ht : Increasing t) :
    tripleWeight quantifier weight t = tripleWeight quantifier (fun e => bag inputs e.1 e.2) t := by
  have hside : ∀ side ∈ sides t, weight side = bag inputs side.1 side.2 := by
    intro side hside
    rw [← hbag, (canonical_of_lt (lt_of_mem_sides ht hside)).1]
  simp only [sides, mem_cons, not_mem_nil, or_false, forall_eq_or_imp, forall_eq] at hside
  obtain ⟨h₁, h₂, h₃⟩ := hside
  unfold tripleWeight
  cases quantifier with
  | all | distinct =>
    dsimp only
    rw [h₁, h₂, h₃]

theorem TriangleRuns.coeff_snapshot (t : V × V × V) : s.snapshot.coeff t =
      if Increasing t then tripleWeight quantifier (fun e => bag inputs e.1 e.2) t else 0 := by
  obtain ⟨hsound, hquantifier, hbag⟩ := h.sound
  rw [hsound.coeff_snapshot, hquantifier]
  split_ifs with ht
  · rw [tripleWeight_bag hbag ht]
  · rfl

/-- The delta of a tick is the change of every triple. -/
theorem TriangleRuns.coeff_delta {delta : ZSet (V × V)}
    {update : TriangleUpdate V} (hok : s.prepare delta = .ok update) (t : V × V × V) :
    (s.commit update).2.coeff t = if Increasing t then
        tripleWeight quantifier (fun e => bag (inputs ++ [delta]) e.1 e.2) t -
          tripleWeight quantifier (fun e => bag inputs e.1 e.2) t
      else 0 := by
  obtain ⟨hsound, hquantifier, hbag⟩ := h.sound
  obtain ⟨-, -, hbag'⟩ := (h.commit hok).sound
  have hnext : ∀ a b, s.next delta (canonical a b) = bag (inputs ++ [delta]) a b := by
    intro a b
    rw [← coeff_commit hsound hok, hbag']
  refine (hsound.coeff_delta hok t).trans ?_
  split_ifs with ht
  · rw [hquantifier, tripleWeight_bag hnext ht, tripleWeight_bag hbag ht]
  · rfl

/-- The retained total is the total of the snapshot. -/
theorem TriangleRuns.total_eq : s.total = s.snapshot.totalWeight := by
  induction h with
  | start => rfl
  | @commit inputs s delta update hrun hok ih =>
    obtain ⟨hsound, -, -⟩ := hrun.sound
    obtain ⟨-, -, -, -, htotal⟩ := prepare_eq_ok hsound hok
    refine htotal.trans ?_
    rw [ih]
    refine (totalWeight_eq_add fun t => ?_).symm
    have hdelta := hrun.coeff_delta hok t
    change update.delta.coeff t = _ at hdelta
    rw [(hrun.commit hok).coeff_snapshot, hrun.coeff_snapshot, hdelta]
    split_ifs <;> ring

/-- Which ticks are refused, with every request granted. -/
theorem TriangleRuns.prepare_error (delta : ZSet (V × V)) :
    s.prepare delta = .error .negativeMultiplicity ↔ ∃ a b, bag (inputs ++ [delta]) a b < 0 := by
  obtain ⟨hsound, -, hbag⟩ := h.sound
  rw [IncrementalTriangles.prepare_eq_error hsound]
  constructor
  · rintro ⟨e, hlt⟩
    have hle := hsound.next_ordered hlt.ne
    refine ⟨e.1, e.2, ?_⟩
    rw [bag_concat, ← hbag, ← coeff_normalized, canonical, if_pos hle]
    exact hlt
  · rintro ⟨a, b, hlt⟩
    refine ⟨canonical a b, ?_⟩
    rw [IncrementalTriangles.next, hbag, coeff_normalized, ← bag_concat]
    exact hlt

end

/-- The triples of three different vertices of a set, each once. -/
def triplesOf (vertices : Finset V) : Finset (V × V × V) :=
  (vertices ×ˢ vertices ×ˢ vertices).filter Increasing

/-- Along every run, for both quantifiers: the total is the sum over all triples of three different
vertices, and the snapshot holds the weight of every triple. A call commits what was prepared and
returns the change of every triple, or it leaves the state as it was; it fails with an error of its own
only when the integrated multiplicity of some pair would be negative, and always then when no request
is refused. -/
theorem triangles_exact (quantifier : TriangleQuantifier) (inputs : List (ZSet (V × V)))
    (s : IncrementalTriangles V) (h : TriangleRuns quantifier inputs s) :
    (∀ vertices : Finset V, (∀ a b, bag inputs a b ≠ 0 → a ∈ vertices) →
      s.total = ∑ t ∈ triplesOf vertices, tripleWeight quantifier (fun e => bag inputs e.1 e.2) t) ∧
    (∀ t, s.snapshot.coeff t =
      if Increasing t then tripleWeight quantifier (fun e => bag inputs e.1 e.2) t else 0) ∧
    ∀ call : Call (ZSet (V × V)), Transacts (s.prepare call.input) s.commit call s (s.run call) ∧
      (∀ output, (s.run call).1 = .committed output → ∀ t, output.coeff t =
        if Increasing t then
          tripleWeight quantifier (fun e => bag (inputs ++ [call.input]) e.1 e.2) t -
            tripleWeight quantifier (fun e => bag inputs e.1 e.2) t
        else 0) ∧
      (false ∉ call.answers → ((s.run call).1 = .failed (.own .negativeMultiplicity) ↔
        ∃ a b, bag (inputs ++ [call.input]) a b < 0)) ∧
      ((s.run call).1 = .failed (.own .negativeMultiplicity) →
        ∃ a b, bag (inputs ++ [call.input]) a b < 0) := by
  obtain ⟨hsound, -, hbag⟩ := h.sound
  refine ⟨fun vertices hvertices => ?_, h.coeff_snapshot, fun call => ?_⟩
  · have hsupport : ∀ t, s.snapshot.coeff t ≠ 0 → t ∈ triplesOf vertices := by
      rintro ⟨x, y, z⟩ ht
      rw [h.coeff_snapshot] at ht
      split_ifs at ht with hinc
      · have hside : ∀ side ∈ sides (x, y, z), side.1 ∈ vertices ∧ side.2 ∈ vertices := by
          intro side hside
          have hne : bag inputs side.1 side.2 ≠ 0 := fun hzero =>
            ht (tripleWeight_eq_zero hside hzero)
          have hcomm : bag inputs side.2 side.1 ≠ 0 := by
            rw [← hbag, canonical_comm, hbag]
            exact hne
          exact ⟨hvertices _ _ hne, hvertices _ _ hcomm⟩
        have hxy := hside (x, y) (by simp [sides])
        have hxz := hside (x, z) (by simp [sides])
        simp only [triplesOf, Finset.mem_filter, Finset.mem_product]
        exact ⟨⟨hxy.1, hxy.2, hxz.2⟩, hinc⟩
      · exact absurd rfl ht
    rw [h.total_eq, ZSet.totalWeight_eq_sum hsupport]
    refine Finset.sum_congr rfl fun t ht => ?_
    rw [h.coeff_snapshot, if_pos (Finset.mem_filter.mp ht).2]
  have hcall : Transacts _ _ call s (s.run call) :=
    Call.run_transacts (s.checkedPrepare_follows call.input)
  refine ⟨hcall, fun output hcommitted t => ?_, fun hgranted => ?_, fun hfailed => ?_⟩
  · obtain ⟨update, hok, -, rfl⟩ := hcall.committed output hcommitted
    exact h.coeff_delta hok t
  · rw [hcall.failed_iff hgranted, h.prepare_error]
  · exact (h.prepare_error call.input).mp (hcall.own_error _ hfailed)

/-- One tick inserts a triangle with a doubled side. -/
theorem triangles_exact_sample : ∃ s : IncrementalTriangles Nat,
      TriangleRuns .all [ZSet.fromUpdates [((1, 2), 1), ((2, 1), 1), ((2, 3), 1), ((3, 1), 1)]] s ∧
        s.total = 2 := by
  obtain ⟨update, hok⟩ : ∃ update, (IncrementalTriangles.new .all : IncrementalTriangles Nat).prepare
      (ZSet.fromUpdates [((1, 2), 1), ((2, 1), 1), ((2, 3), 1), ((3, 1), 1)]) = .ok update :=
    ⟨_, rfl⟩
  have hrun := TriangleRuns.start.commit hok
  refine ⟨_, hrun, ?_⟩
  rw [(triangles_exact .all _ _ hrun).1 {1, 2, 3}]
  · decide
  · intro a b hne
    by_contra hnot
    refine hne ?_
    simp only [Finset.mem_insert, Finset.mem_singleton, not_or] at hnot
    obtain ⟨h₁, h₂, h₃⟩ := hnot
    simp [bag, pairDelta, ZSet.fromUpdates, Ne.symm h₁, Ne.symm h₂, Ne.symm h₃]

/-- A multiplicity would be negative, but the control ends the tick first. -/
theorem triangles_refused_first : bag [ZSet.fromUpdates [((1, 2), -1)]] 1 2 < 0 ∧
    ((IncrementalTriangles.new .all : IncrementalTriangles Nat).run
      ⟨ZSet.fromUpdates [((1, 2), -1)], [false], true⟩).1 = .failed (.refused .control) :=
  ⟨by decide, rfl⟩

end FrankenGraph.Zset

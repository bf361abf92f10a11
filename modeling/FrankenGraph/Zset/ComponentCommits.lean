import FrankenGraph.Zset.ComponentTicks

/-!
# Commits of the incremental components

A tick is accepted when it meets the three rules of its input. What it publishes is then the
components after the tick: outside the region nothing changes, and inside it the partition is the
partition of the whole graph.

Results:
* `nextLabels_iff`, `nextMembers_iff`: the labels and members after a tick
* `prepare_cases`: which ticks are accepted
* `Sound.commit`: a commit keeps the invariant
* `counts_commit`, `coeff_delta`: the prepared counts and the returned delta
-/

namespace FrankenGraph.Zset

open List Option Std.ExtTreeSet Std.ExtTreeMap ZSet BTreeMap BTreeSet Adjacency

open Std (ExtTreeMap ExtTreeSet)

variable {V : Type} [LinearOrder V]

namespace IncrementalComponents

variable {s : IncrementalComponents V} {vertexDelta : ZSet V} {edgeDelta : ZSet (V × V)}

/-! ## The rules of a tick -/

/-- The rule that an error says is violated. -/
def Violates (s : IncrementalComponents V) (vertexDelta : ZSet V) (edgeDelta : ZSet (V × V)) :
    ComponentError → Prop
  | .vertexMultiplicity =>
    ∃ v, s.nextVertex vertexDelta v ≠ 0 ∧ s.nextVertex vertexDelta v ≠ 1
  | .negativeEdgeMultiplicity => ∃ e, s.nextEdge edgeDelta e < 0
  | .missingEndpoint => ∃ e, s.nextEdge edgeDelta e ≠ 0 ∧
    (s.nextVertex vertexDelta e.1 = 0 ∨ s.nextVertex vertexDelta e.2 = 0)
  | .cardinalityOverflow => False

/-- A tick meets every rule. -/
def Admissible (s : IncrementalComponents V) (vertexDelta : ZSet V) (edgeDelta : ZSet (V × V)) :
    Prop :=
  ∀ error, ¬ s.Violates vertexDelta edgeDelta error

theorem violates_of_checkVertex (h : Sound s) {c : V × Int} {error : ComponentError}
    (hc : c ∈ (s.vertices.prepareIntegration vertexDelta).toList)
    (hcheck : s.checkVertex (s.edges.prepareIntegration (normalized edgeDelta)) c = some error) :
    s.Violates vertexDelta edgeDelta error := by
  have hnext : c.2 = s.nextVertex vertexDelta c.1 :=
    (lookup_weights (mem_toList_iff_getElem?_eq_some.mp hc)).1
  unfold checkVertex at hcheck
  split_ifs at hcheck with hweight hmissing
  · cases hcheck
    rw [hnext] at hweight
    exact ⟨c.1, hweight⟩
  · cases hcheck
    obtain ⟨hzero, hany⟩ := hmissing
    obtain ⟨n, hn, hstays⟩ := any_eq_true.mp hany
    have hold := (h.neighbors_iff c.1 n).mp (mem_toList.mp hn)
    refine ⟨canonical c.1 n, fun hgone => ?_, ?_⟩
    · have hne : s.nextEdge edgeDelta (canonical c.1 n) ≠ s.edges.coeff (canonical c.1 n) := by
        rw [hgone]
        exact hold.symm
      refine of_decide_eq_true hstays ?_
      rw [weights_of_ne hne]
      exact congrArg some hgone
    · rcases canonical_pair c.1 n with hpair | hpair <;> rw [hpair]
      · exact .inl (hnext ▸ hzero)
      · exact .inr (hnext ▸ hzero)

theorem violates_of_checkEdge {c : (V × V) × Int} {error : ComponentError}
    (hc : c ∈ (s.edges.prepareIntegration (normalized edgeDelta)).toList)
    (hcheck : s.checkEdge (s.vertices.prepareIntegration vertexDelta) c = some error) :
    s.Violates vertexDelta edgeDelta error := by
  have hnext : c.2 = s.nextEdge edgeDelta c.1 :=
    (lookup_weights (mem_toList_iff_getElem?_eq_some.mp hc)).1
  unfold checkEdge at hcheck
  split_ifs at hcheck with hneg hmissing
  · cases hcheck
    exact ⟨c.1, hnext ▸ hneg⟩
  · cases hcheck
    obtain ⟨hlive, hgone⟩ := hmissing
    refine ⟨c.1, hnext ▸ hlive, ?_⟩
    rw [Bool.or_eq_true, Bool.not_eq_true', Bool.not_eq_true', ← Bool.not_eq_true,
      ← Bool.not_eq_true, present_iff, present_iff, not_ne_iff, not_ne_iff] at hgone
    exact hgone

/-- When no check fails, every rule is met. -/
theorem admissible_of_checks (h : Sound s)
    (hvertices : (s.vertices.prepareIntegration vertexDelta).toList.findSome?
      (s.checkVertex (s.edges.prepareIntegration (normalized edgeDelta))) = none)
    (hedges : (s.edges.prepareIntegration (normalized edgeDelta)).toList.findSome?
      (s.checkEdge (s.vertices.prepareIntegration vertexDelta)) = none) :
    s.Admissible vertexDelta edgeDelta := by
  have hvertex : ∀ v, s.nextVertex vertexDelta v ≠ s.vertices.coeff v →
      s.checkVertex (s.edges.prepareIntegration (normalized edgeDelta))
        (v, s.nextVertex vertexDelta v) = none := fun v hne =>
    List.findSome?_eq_none_iff.mp hvertices _
      (ExtTreeMap.mem_toList_iff_getElem?_eq_some.mpr (weights_of_ne hne))
  have hedge : ∀ e, s.nextEdge edgeDelta e ≠ s.edges.coeff e →
      s.checkEdge (s.vertices.prepareIntegration vertexDelta) (e, s.nextEdge edgeDelta e) = none :=
    fun e hne => List.findSome?_eq_none_iff.mp hedges _
      (ExtTreeMap.mem_toList_iff_getElem?_eq_some.mpr (weights_of_ne hne))
  -- an end of an unchanged edge stays: it was live, and its retirement is checked
  have hstays : ∀ a b, s.nextEdge edgeDelta (canonical a b) ≠ 0 →
      s.nextEdge edgeDelta (canonical a b) = s.edges.coeff (canonical a b) →
      s.vertices.coeff a ≠ 0 → s.nextVertex vertexDelta a ≠ 0 := by
    intro a b hlive hsame hold hgone
    have hcheck := hvertex a (by rw [hgone]; exact hold.symm)
    unfold checkVertex at hcheck
    split_ifs at hcheck with hweight hmissing
    refine hmissing ⟨hgone, List.any_eq_true.mpr ⟨b, ?_, decide_eq_true ?_⟩⟩
    · rw [ExtTreeSet.mem_toList]
      exact (h.neighbors_iff a b).mpr (hsame ▸ hlive)
    · intro hzero
      exact hlive (lookup_weights hzero).1.symm
  rintro error hviolates
  cases error with
  | vertexMultiplicity =>
    obtain ⟨v, h₀, h₁⟩ := hviolates
    by_cases hne : s.nextVertex vertexDelta v = s.vertices.coeff v
    · rcases h.vertex_cases v with hv | hv
      · exact h₀ (hne.trans hv)
      · exact h₁ (hne.trans hv)
    · have hcheck := hvertex v hne
      rw [checkVertex, if_pos ⟨h₀, h₁⟩] at hcheck
      cases hcheck
  | negativeEdgeMultiplicity =>
    obtain ⟨e, hneg⟩ := hviolates
    have hcheck := hedge e (hneg.trans_le (h.nonneg e)).ne
    rw [checkEdge, if_pos hneg] at hcheck
    cases hcheck
  | missingEndpoint =>
    obtain ⟨e, hlive, hgone⟩ := hviolates
    by_cases hne : s.nextEdge edgeDelta e = s.edges.coeff e
    · obtain ⟨h₁, h₂⟩ := h.endpoints e (hne ▸ hlive)
      have hle := h.ordered e (hne ▸ hlive)
      have hcanonical : canonical e.1 e.2 = e := if_pos hle
      rcases hgone with hgone | hgone
      · exact hstays e.1 e.2 (hcanonical.symm ▸ hlive) (hcanonical.symm ▸ hne) h₁ hgone
      · rw [canonical_comm] at hcanonical
        exact hstays e.2 e.1 (hcanonical.symm ▸ hlive) (hcanonical.symm ▸ hne) h₂ hgone
    · have hcheck := hedge e hne
      unfold checkEdge at hcheck
      split_ifs at hcheck with hneg hmissing
      refine hmissing ⟨hlive, ?_⟩
      rw [Bool.or_eq_true, Bool.not_eq_true', Bool.not_eq_true', ← Bool.not_eq_true,
        ← Bool.not_eq_true, present_iff, present_iff, not_ne_iff, not_ne_iff]
      exact hgone
  | cardinalityOverflow => exact hviolates

/-! ## The parts of an update -/

section Parts

variable (s : IncrementalComponents V) (vertexDelta : ZSet V) (edgeDelta : ZSet (V × V))

/-- What a tick stages. -/
def staged : StagedEdges V :=
  s.stagedEdges ((s.vertices.prepareIntegration vertexDelta).toList.foldl s.touchVertex ∅) edgeDelta

/-- The old components that a tick takes apart. -/
def tickRoots : BTreeSet V :=
  s.affectedRoots (s.staged vertexDelta edgeDelta).touched

/-- The region of a tick. -/
def tickCandidates : BTreeSet V :=
  s.affected (s.staged vertexDelta edgeDelta).touched (s.tickRoots vertexDelta edgeDelta)

/-- What is live of the region after a tick. -/
def tickRemaining : BTreeSet V :=
  (s.tickCandidates vertexDelta edgeDelta).filter fun vertex =>
    present s.vertices (s.vertices.prepareIntegration vertexDelta) vertex

/-- The neighbours after a tick. -/
def tickNeighbors : V → List V :=
  s.nextNeighbors (s.staged vertexDelta edgeDelta).inserted (s.staged vertexDelta edgeDelta).removed

/-- The components of the region after a tick. -/
def tickPartition : Partition V :=
  partition (s.tickNeighbors vertexDelta edgeDelta) (s.tickRemaining vertexDelta edgeDelta)

/-- The labelled vertices of the region. -/
def tickLabelled : List V :=
  (s.tickCandidates vertexDelta edgeDelta).toList.filter fun vertex => s.labels.contains vertex

/-- `prepare` by its checks and the parts of the update. -/
theorem prepare_eq : s.prepare vertexDelta edgeDelta =
    match (s.vertices.prepareIntegration vertexDelta).toList.findSome?
      (s.checkVertex (s.edges.prepareIntegration (normalized edgeDelta))) with
    | some error => .error error
    | none =>
      match (s.edges.prepareIntegration (normalized edgeDelta)).toList.findSome?
        (s.checkEdge (s.vertices.prepareIntegration vertexDelta)) with
      | some error => .error error
      | none => do
        let count ← replaceCount s.members.size (s.tickRoots vertexDelta edgeDelta).size
          (s.tickPartition vertexDelta edgeDelta).members.size
        let vertexCount ← replaceCount s.labels.size (s.tickLabelled vertexDelta edgeDelta).length
          (s.tickPartition vertexDelta edgeDelta).labels.size
        return {
          vertices := s.vertices.prepareIntegration vertexDelta
          edges := s.edges.prepareIntegration (normalized edgeDelta)
          inserted := (s.staged vertexDelta edgeDelta).inserted
          removed := (s.staged vertexDelta edgeDelta).removed
          roots := s.tickRoots vertexDelta edgeDelta
          candidates := s.tickCandidates vertexDelta edgeDelta
          labels := (s.tickPartition vertexDelta edgeDelta).labels
          members := (s.tickPartition vertexDelta edgeDelta).members
          count
          vertexCount
          delta := s.labelDelta (s.tickCandidates vertexDelta edgeDelta)
            (s.tickPartition vertexDelta edgeDelta).labels } := by
  have hvertices := foldlM_guarded
    (s.checkVertex (s.edges.prepareIntegration (normalized edgeDelta))) s.touchVertex
    (s.vertices.prepareIntegration vertexDelta).toList ∅
  have hedges := fun touched => foldlM_guarded
    (s.checkEdge (s.vertices.prepareIntegration vertexDelta)) s.stageEdge
    (s.edges.prepareIntegration (normalized edgeDelta)).toList
    { touched, inserted := ∅, removed := ∅ }
  unfold prepare
  dsimp only
  rw [show (edgeDelta.map fun e => canonical e.1 e.2) = normalized edgeDelta from rfl, hvertices]
  cases (s.vertices.prepareIntegration vertexDelta).toList.findSome?
      (s.checkVertex (s.edges.prepareIntegration (normalized edgeDelta))) with
  | some error => rfl
  | none =>
    dsimp only
    rw [ok_bind, hedges]
    cases (s.edges.prepareIntegration (normalized edgeDelta)).toList.findSome?
        (s.checkEdge (s.vertices.prepareIntegration vertexDelta)) with
    | some error => rfl
    | none => rfl

end Parts

/-! ## The labels and members after a tick -/

theorem leader_congr {f g : V → List V} (hfg : ∀ a b, b ∈ f a ↔ b ∈ g a) (v r : V) :
    Leader f v r ↔ Leader g v r := by
  rw [Leader, Leader, connected_congr hfg]

section Tick

variable (h : Sound s) (hadmissible : s.Admissible vertexDelta edgeDelta)

include h in
theorem mem_tickNeighbors (a b : V) :
    b ∈ s.tickNeighbors vertexDelta edgeDelta a ↔ s.nextEdge edgeDelta (canonical a b) ≠ 0 :=
  mem_nextNeighbors h _ a b

include h in
theorem tickRegion : Region s vertexDelta edgeDelta (s.tickRoots vertexDelta edgeDelta)
    (s.tickCandidates vertexDelta edgeDelta) :=
  h.region

variable {v : V}

theorem mem_tickRemaining : v ∈ s.tickRemaining vertexDelta edgeDelta ↔
    v ∈ s.tickCandidates vertexDelta edgeDelta ∧ s.nextVertex vertexDelta v ≠ 0 := by
  rw [tickRemaining, BTreeSet.mem_filter, present_iff]

include hadmissible in
theorem live_of_nextEdge {a b : V} (hab : s.nextEdge edgeDelta (canonical a b) ≠ 0) :
    s.nextVertex vertexDelta a ≠ 0 ∧ s.nextVertex vertexDelta b ≠ 0 := by
  have hends := hadmissible .missingEndpoint
  have hlive : s.nextVertex vertexDelta (canonical a b).1 ≠ 0 ∧
      s.nextVertex vertexDelta (canonical a b).2 ≠ 0 := by
    constructor
    · exact fun hzero => hends ⟨canonical a b, hab, .inl hzero⟩
    · exact fun hzero => hends ⟨canonical a b, hab, .inr hzero⟩
  rcases canonical_pair a b with hpair | hpair <;> rw [hpair] at hlive
  · exact hlive
  · exact hlive.symm

include h hadmissible in
/-- What the partition of the region gives. -/
theorem tickPartition_spec : (∀ v r, (s.tickPartition vertexDelta edgeDelta).labels[v]? = some r ↔
      v ∈ s.tickRemaining vertexDelta edgeDelta ∧
        Leader (s.tickNeighbors vertexDelta edgeDelta) v r) ∧
    (∀ v ∈ s.tickRemaining vertexDelta edgeDelta,
      ∃ r, (s.tickPartition vertexDelta edgeDelta).labels[v]? = some r) ∧
    (∀ r v, (s.tickPartition vertexDelta edgeDelta).members.Has r v ↔
      (s.tickPartition vertexDelta edgeDelta).labels[v]? = some r) ∧
    ∀ (r : V) (row : BTreeSet V),
      (s.tickPartition vertexDelta edgeDelta).members[r]? = some row → r ∈ row := by
  refine partition_spec (fun a b hab => ?_) fun a ha b hab => ?_
  · rw [mem_tickNeighbors h] at hab ⊢
    rwa [canonical_comm]
  · rw [mem_tickRemaining] at ha ⊢
    refine ⟨(tickRegion h).closed h (mem_tickNeighbors h) ha.1 hab, ?_⟩
    rw [mem_tickNeighbors h] at hab
    exact (live_of_nextEdge hadmissible hab).2

/-- The labels after a tick. -/
def nextLabels (s : IncrementalComponents V) (vertexDelta : ZSet V) (edgeDelta : ZSet (V × V))
    (v : V) : Option V :=
  ((s.tickPartition vertexDelta edgeDelta).labels[v]?).or
    (if v ∈ s.tickCandidates vertexDelta edgeDelta then none else s.labels[v]?)

theorem nextLabels_inside (hv : v ∈ s.tickCandidates vertexDelta edgeDelta) :
    s.nextLabels vertexDelta edgeDelta v = (s.tickPartition vertexDelta edgeDelta).labels[v]? := by
  rw [nextLabels, if_pos hv, or_none]

include h hadmissible in
theorem nextLabels_outside (hv : v ∉ s.tickCandidates vertexDelta edgeDelta) :
    s.nextLabels vertexDelta edgeDelta v = s.labels[v]? := by
  obtain ⟨hlabels, -⟩ := tickPartition_spec h hadmissible
  have hnone : (s.tickPartition vertexDelta edgeDelta).labels[v]? = none := by
    cases hlabel : (s.tickPartition vertexDelta edgeDelta).labels[v]? with
    | none => rfl
    | some r => exact absurd (mem_tickRemaining.mp ((hlabels v r).mp hlabel).1).1 hv
  rw [nextLabels, if_neg hv, hnone, none_or]

include h hadmissible in
/-- Every vertex is labelled by the least vertex of its component after the tick. -/
theorem nextLabels_iff (v r : V) : s.nextLabels vertexDelta edgeDelta v = some r ↔
    s.nextVertex vertexDelta v ≠ 0 ∧ Leader (s.tickNeighbors vertexDelta edgeDelta) v r := by
  obtain ⟨hlabels, -⟩ := tickPartition_spec h hadmissible
  by_cases hv : v ∈ s.tickCandidates vertexDelta edgeDelta
  · rw [nextLabels_inside hv, hlabels, mem_tickRemaining]
    simp only [hv, true_and]
  · rw [nextLabels_outside h hadmissible hv, h.labels_iff, (tickRegion h).vertex v hv]
    refine and_congr_right fun _ => ?_
    have hsame : ∀ u, Connected (s.tickNeighbors vertexDelta edgeDelta) v u ↔
        Connected s.adjacentTo v u := (tickRegion h).outside h (mem_tickNeighbors h) hv
    unfold Leader
    simp only [hsame]

include h hadmissible in
theorem nextLabels_total (hlive : s.nextVertex vertexDelta v ≠ 0) :
    ∃ r, s.nextLabels vertexDelta edgeDelta v = some r := by
  obtain ⟨-, htotal, -⟩ := tickPartition_spec h hadmissible
  by_cases hv : v ∈ s.tickCandidates vertexDelta edgeDelta
  · rw [nextLabels_inside hv]
    exact htotal v (mem_tickRemaining.mpr ⟨hv, hlive⟩)
  · rw [nextLabels_outside h hadmissible hv]
    exact h.labelled v (((tickRegion h).vertex v hv).mpr hlive)

/-- The members after a tick. -/
def nextMembers (s : IncrementalComponents V) (vertexDelta : ZSet V) (edgeDelta : ZSet (V × V))
    (r : V) : Option (BTreeSet V) :=
  ((s.tickPartition vertexDelta edgeDelta).members[r]?).or
    (if r ∈ s.tickRoots vertexDelta edgeDelta then none else s.members[r]?)

variable {r : V}

theorem has_of_lookup {m : Adjacency V} {row : BTreeSet V}
    (hrow : m[r]? = some row) : m.Has r v ↔ v ∈ row := by
  rw [Adjacency.Has, Adjacency.row, hrow, getD_some]

theorem exists_row {m : Adjacency V} (hv : m.Has r v) : ∃ row, m[r]? = some row ∧ v ∈ row := by
  cases hrow : m[r]? with
  | none =>
    rw [Adjacency.Has, row, hrow] at hv
    exact absurd hv ExtTreeSet.not_mem_empty
  | some row => exact ⟨row, rfl, (has_of_lookup hrow).mp hv⟩

include h hadmissible in
/-- The root of a new group is no root of an old group that stays. -/
theorem root_of_tickPartition {row : BTreeSet V}
    (hrow : (s.tickPartition vertexDelta edgeDelta).members[r]? = some row) :
    r ∈ s.tickRoots vertexDelta edgeDelta ∨ s.members[r]? = none := by
  obtain ⟨hlabels, -, hmembers, hrows⟩ := tickPartition_spec h hadmissible
  cases hold : s.members[r]? with
  | none => exact .inr rfl
  | some oldRow =>
    have hlabel : s.labels[r]? = some r :=
      (h.members_iff r r).mp ((has_of_lookup hold).mpr (h.rows r oldRow hold))
    have hnew := (hmembers r r).mp ((has_of_lookup hrow).mpr (hrows r row hrow))
    have hmem := (mem_tickRemaining.mp ((hlabels r r).mp hnew).1).1
    exact .inl (((tickRegion h).labelled r r hlabel).mp hmem)

include h hadmissible in
/-- The members are the inverse of the labels after the tick. -/
theorem nextMembers_iff (r v : V) :
    (∃ row, s.nextMembers vertexDelta edgeDelta r = some row ∧ v ∈ row) ↔
      s.nextLabels vertexDelta edgeDelta v = some r := by
  obtain ⟨hlabels, -, hmembers, hrows⟩ := tickPartition_spec h hadmissible
  unfold nextMembers
  constructor
  · rintro ⟨row, hrow, hv⟩
    cases hnew : (s.tickPartition vertexDelta edgeDelta).members[r]? with
    | some newRow =>
      rw [hnew, some_or, some.injEq] at hrow
      subst hrow
      have hlabel := (hmembers r v).mp ((has_of_lookup hnew).mpr hv)
      rw [nextLabels, hlabel, some_or]
    | none =>
      rw [hnew, none_or] at hrow
      split_ifs at hrow with hr
      have hlabel := (h.members_iff r v).mp ((has_of_lookup hrow).mpr hv)
      have hout : v ∉ s.tickCandidates vertexDelta edgeDelta := by
        rwa [(tickRegion h).labelled v r hlabel]
      rw [nextLabels_outside h hadmissible hout, hlabel]
  · intro hlabel
    by_cases hv : v ∈ s.tickCandidates vertexDelta edgeDelta
    · rw [nextLabels_inside hv] at hlabel
      obtain ⟨row, hrow, hmem⟩ := exists_row ((hmembers r v).mpr hlabel)
      exact ⟨row, by rw [hrow, some_or], hmem⟩
    · rw [nextLabels_outside h hadmissible hv] at hlabel
      obtain ⟨row, hrow, hmem⟩ := exists_row ((h.members_iff r v).mpr hlabel)
      have hr : r ∉ s.tickRoots vertexDelta edgeDelta := by
        rwa [← (tickRegion h).labelled v r hlabel]
      have hnone : (s.tickPartition vertexDelta edgeDelta).members[r]? = none := by
        cases hnew : (s.tickPartition vertexDelta edgeDelta).members[r]? with
        | none => rfl
        | some newRow =>
          rcases root_of_tickPartition h hadmissible hnew with hroot | hnone
          · exact absurd hroot hr
          · cases hrow.symm.trans hnone
      exact ⟨row, by rw [hnone, none_or, if_neg hr, hrow], hmem⟩

end Tick

/-! ## Counts -/

section Counts

variable (h : Sound s) (hadmissible : s.Admissible vertexDelta edgeDelta)

include h hadmissible

theorem size_members {members : Adjacency V}
    (hmembers : ∀ r, members[r]? = s.nextMembers vertexDelta edgeDelta r) :
    (s.tickRoots vertexDelta edgeDelta).size ≤ s.members.size ∧
      members.size = s.members.size - (s.tickRoots vertexDelta edgeDelta).size +
        (s.tickPartition vertexDelta edgeDelta).members.size := by
  rw [← card_elements]
  refine size_replace (fun r => ?_) (fun r hr => ?_) fun r row hrow => ?_
  · rw [hmembers, nextMembers]
    simp only [mem_elements]
  · obtain ⟨v, hv⟩ := (tickRegion h).roots_labelled r (mem_elements.mp hr)
    obtain ⟨row, hrow, -⟩ := exists_row ((h.members_iff r v).mpr hv)
    exact ⟨row, hrow⟩
  · rw [mem_elements]
    exact root_of_tickPartition h hadmissible hrow

theorem size_labels {labels : BTreeMap V V}
    (hlabels : ∀ v, labels[v]? = s.nextLabels vertexDelta edgeDelta v) :
    (s.tickLabelled vertexDelta edgeDelta).length ≤ s.labels.size ∧
      labels.size = s.labels.size - (s.tickLabelled vertexDelta edgeDelta).length +
        (s.tickPartition vertexDelta edgeDelta).labels.size := by
  obtain ⟨hpartition, -⟩ := tickPartition_spec h hadmissible
  have hmem : ∀ v, v ∈ (s.tickLabelled vertexDelta edgeDelta).toFinset ↔
      v ∈ s.tickCandidates vertexDelta edgeDelta ∧ ∃ r, s.labels[v]? = some r := by
    intro v
    rw [List.mem_toFinset, tickLabelled, List.mem_filter, ExtTreeSet.mem_toList,
      ExtTreeMap.contains_iff_mem, mem_iff_lookup]
  have hnodup : (s.tickLabelled vertexDelta edgeDelta).Nodup :=
    (BTreeSet.nodup_toList (s.tickCandidates vertexDelta edgeDelta)).filter _
  rw [← List.toFinset_card_of_nodup hnodup]
  refine size_replace (fun v => ?_) (fun v hv => ((hmem v).mp hv).2) fun v r hr => ?_
  · rw [hlabels, nextLabels]
    by_cases hv : v ∈ s.tickCandidates vertexDelta edgeDelta
    · cases hold : s.labels[v]? with
      | none => simp
      | some r =>
        have hlabelled := (hmem v).mpr ⟨hv, r, hold⟩
        simp [hv, hlabelled]
    · have hlabelled : v ∉ (s.tickLabelled vertexDelta edgeDelta).toFinset := fun hl =>
        hv ((hmem v).mp hl).1
      simp [hv, hlabelled]
  · have hv := (mem_tickRemaining.mp ((hpartition v r).mp hr).1).1
    cases hold : s.labels[v]? with
    | none => exact .inr rfl
    | some r' => exact .inl ((hmem v).mpr ⟨hv, r', hold⟩)

/-- The counts of a tick that passes the checks do not fail. -/
theorem replaceCount_eq : replaceCount s.members.size (s.tickRoots vertexDelta edgeDelta).size
        (s.tickPartition vertexDelta edgeDelta).members.size =
      .ok (s.members.size - (s.tickRoots vertexDelta edgeDelta).size +
        (s.tickPartition vertexDelta edgeDelta).members.size) ∧
    replaceCount s.labels.size (s.tickLabelled vertexDelta edgeDelta).length
        (s.tickPartition vertexDelta edgeDelta).labels.size =
      .ok (s.labels.size - (s.tickLabelled vertexDelta edgeDelta).length +
        (s.tickPartition vertexDelta edgeDelta).labels.size) := by
  have hmembers : ∀ r, ((s.tickPartition vertexDelta edgeDelta).members.toList.foldl
      (fun (m : Adjacency V) e => m.insert e.1 e.2)
      ((s.tickRoots vertexDelta edgeDelta).toList.foldl (fun (m : Adjacency V) r => m.erase r)
        s.members))[r]? = s.nextMembers vertexDelta edgeDelta r := by
    intro r
    rw [lookup_extend, lookup_foldl_erase, nextMembers]
    simp only [ExtTreeSet.mem_toList]
  have hlabels : ∀ v, ((s.tickPartition vertexDelta edgeDelta).labels.toList.foldl
      (fun (m : BTreeMap V V) e => m.insert e.1 e.2)
      ((s.tickCandidates vertexDelta edgeDelta).toList.foldl (fun (m : BTreeMap V V) r => m.erase r)
        s.labels))[v]? = s.nextLabels vertexDelta edgeDelta v := by
    intro v
    rw [lookup_extend, lookup_foldl_erase, nextLabels]
    simp only [ExtTreeSet.mem_toList]
  constructor
  · exact if_neg (Nat.not_lt.mpr (size_members h hadmissible hmembers).1)
  · exact if_neg (Nat.not_lt.mpr (size_labels h hadmissible hlabels).1)

end Counts

/-! ## Accepted ticks -/

/-- What an accepted tick has staged. -/
structure Prepared (s : IncrementalComponents V) (vertexDelta : ZSet V) (edgeDelta : ZSet (V × V))
    (update : ComponentUpdate V) : Prop where
  vertices : update.vertices = s.vertices.prepareIntegration vertexDelta
  edges : update.edges = s.edges.prepareIntegration (normalized edgeDelta)
  inserted : update.inserted = (s.staged vertexDelta edgeDelta).inserted
  removed : update.removed = (s.staged vertexDelta edgeDelta).removed
  roots : update.roots = s.tickRoots vertexDelta edgeDelta
  candidates : update.candidates = s.tickCandidates vertexDelta edgeDelta
  labels : update.labels = (s.tickPartition vertexDelta edgeDelta).labels
  members : update.members = (s.tickPartition vertexDelta edgeDelta).members
  count : update.count = s.members.size - (s.tickRoots vertexDelta edgeDelta).size +
    (s.tickPartition vertexDelta edgeDelta).members.size
  vertexCount : update.vertexCount = s.labels.size -
    (s.tickLabelled vertexDelta edgeDelta).length +
    (s.tickPartition vertexDelta edgeDelta).labels.size
  delta : update.delta = s.labelDelta (s.tickCandidates vertexDelta edgeDelta)
    (s.tickPartition vertexDelta edgeDelta).labels

section Committed

variable {update : ComponentUpdate V} (hprepared : Prepared s vertexDelta edgeDelta update)

include hprepared

theorem coeff_vertices_commit (v : V) :
    (s.commit update).1.vertices.coeff v = s.nextVertex vertexDelta v := by
  change (s.vertices.publish update.vertices).coeff v = _
  rw [hprepared.vertices, coeff_publish_prepareIntegration]
  rfl

theorem coeff_edges_commit (e : V × V) :
    (s.commit update).1.edges.coeff e = s.nextEdge edgeDelta e := by
  change (s.edges.publish update.edges).coeff e = _
  rw [hprepared.edges, coeff_publish_prepareIntegration]
  rfl

theorem has_neighbors_commit (h : Sound s) (a b : V) :
    (s.commit update).1.neighbors.Has a b ↔ s.nextEdge edgeDelta (canonical a b) ≠ 0 := by
  refine has_extend.trans ?_
  rw [has_foldl_unlink_rows, hprepared.removed, hprepared.inserted, h.neighbors_iff, staged,
    has_inserted, has_removed]
  tauto

theorem labels_commit (v : V) :
    (s.commit update).1.labels[v]? = s.nextLabels vertexDelta edgeDelta v := by
  refine (lookup_extend _ _ v).trans ?_
  rw [lookup_foldl_erase, hprepared.labels, hprepared.candidates, nextLabels]
  simp only [ExtTreeSet.mem_toList]

theorem members_commit (r : V) :
    (s.commit update).1.members[r]? = s.nextMembers vertexDelta edgeDelta r := by
  refine (lookup_extend _ _ r).trans ?_
  rw [lookup_foldl_erase, hprepared.members, hprepared.roots, nextMembers]
  simp only [ExtTreeSet.mem_toList]

theorem Sound.commit (h : Sound s) (hadmissible : s.Admissible vertexDelta edgeDelta) :
    Sound (s.commit update).1 := by
  have hadjacent : ∀ a b, b ∈ (s.commit update).1.adjacentTo a ↔
      b ∈ s.tickNeighbors vertexDelta edgeDelta a := by
    intro a b
    rw [mem_tickNeighbors h, adjacentTo, ExtTreeSet.mem_toList]
    exact has_neighbors_commit hprepared h a b
  refine ⟨fun v => ?_, fun e => ?_, fun e he => ?_, fun e he => ?_, fun a b => ?_, fun v r => ?_,
    fun v hv => ?_, fun r v => ?_, fun r row hrow => ?_⟩
  · rw [coeff_vertices_commit hprepared]
    have hrule := hadmissible .vertexMultiplicity
    by_contra hnot
    push Not at hnot
    exact hrule ⟨v, hnot⟩
  · rw [coeff_edges_commit hprepared]
    by_contra hneg
    exact hadmissible .negativeEdgeMultiplicity ⟨e, lt_of_not_ge hneg⟩
  · rw [coeff_edges_commit hprepared] at he
    exact h.canonical_of_nextEdge he ▸ canonical_le e.1 e.2
  · rw [coeff_edges_commit hprepared] at he
    rw [coeff_vertices_commit hprepared, coeff_vertices_commit hprepared]
    have hrule := hadmissible .missingEndpoint
    exact ⟨fun hzero => hrule ⟨e, he, .inl hzero⟩, fun hzero => hrule ⟨e, he, .inr hzero⟩⟩
  · rw [coeff_edges_commit hprepared]
    exact has_neighbors_commit hprepared h a b
  · rw [labels_commit hprepared, nextLabels_iff h hadmissible, coeff_vertices_commit hprepared,
      leader_congr hadjacent]
  · rw [coeff_vertices_commit hprepared] at hv
    rw [labels_commit hprepared]
    exact nextLabels_total h hadmissible hv
  · rw [labels_commit hprepared, ← nextMembers_iff h hadmissible]
    constructor
    · intro hhas
      obtain ⟨row, hrow, hv⟩ := exists_row hhas
      exact ⟨row, (members_commit hprepared r).symm.trans hrow, hv⟩
    · rintro ⟨row, hrow, hv⟩
      exact (has_of_lookup ((members_commit hprepared r).trans hrow)).mpr hv
  · rw [members_commit hprepared, nextMembers] at hrow
    cases hnew : (s.tickPartition vertexDelta edgeDelta).members[r]? with
    | some newRow =>
      rw [hnew, Option.some_or, Option.some.injEq] at hrow
      obtain ⟨-, -, -, hrows⟩ := tickPartition_spec h hadmissible
      exact hrow ▸ hrows r newRow hnew
    | none =>
      rw [hnew, Option.none_or] at hrow
      split_ifs at hrow
      exact h.rows r row hrow

theorem counts_commit (h : Sound s) (hadmissible : s.Admissible vertexDelta edgeDelta) :
    update.count = (s.commit update).1.componentCount ∧
      update.vertexCount = (s.commit update).1.vertexCount := by
  have hmembers := size_members h hadmissible (members_commit hprepared)
  have hlabels := size_labels h hadmissible (labels_commit hprepared)
  exact ⟨hprepared.count.trans hmembers.2.symm, hprepared.vertexCount.trans hlabels.2.symm⟩

/-- The returned delta is the difference of the label rows. -/
theorem coeff_delta (h : Sound s) (hadmissible : s.Admissible vertexDelta edgeDelta) (v r : V) :
    (s.commit update).2.coeff (v, r) = (if (s.commit update).1.labels[v]? = some r then 1 else 0) -
        (if s.labels[v]? = some r then 1 else 0) := by
  change update.delta.coeff (v, r) = _
  rw [hprepared.delta, labelDelta]
  refine coeff_rowDelta_of_outside (fun u hu => ?_) (fun u hu => ?_) v r
  · rw [labels_commit hprepared, nextLabels_inside hu]
  · rw [labels_commit hprepared, nextLabels_outside h hadmissible hu]

end Committed

/-- A tick that meets every rule is accepted; any other fails with an error whose rule it
violates. -/
theorem prepare_cases (h : Sound s) (vertexDelta : ZSet V) (edgeDelta : ZSet (V × V)) :
    (∃ update, s.prepare vertexDelta edgeDelta = .ok update ∧
      s.Admissible vertexDelta edgeDelta ∧ Prepared s vertexDelta edgeDelta update) ∨
    ∃ error, s.prepare vertexDelta edgeDelta = .error error ∧
      s.Violates vertexDelta edgeDelta error := by
  rw [prepare_eq]
  cases hvertices : (s.vertices.prepareIntegration vertexDelta).toList.findSome?
      (s.checkVertex (s.edges.prepareIntegration (normalized edgeDelta))) with
  | some error =>
    obtain ⟨c, hc, hcheck⟩ := exists_of_findSome?_eq_some hvertices
    exact .inr ⟨error, rfl, violates_of_checkVertex h hc hcheck⟩
  | none =>
    cases hedges : (s.edges.prepareIntegration (normalized edgeDelta)).toList.findSome?
        (s.checkEdge (s.vertices.prepareIntegration vertexDelta)) with
    | some error =>
      obtain ⟨c, hc, hcheck⟩ := exists_of_findSome?_eq_some hedges
      exact .inr ⟨error, rfl, violates_of_checkEdge hc hcheck⟩
    | none =>
      have hadmissible := admissible_of_checks h hvertices hedges
      obtain ⟨hcount, hvertexCount⟩ := replaceCount_eq h hadmissible
      dsimp only
      rw [hcount, ok_bind, hvertexCount, ok_bind]
      refine .inl ⟨_, rfl, hadmissible, ?_⟩
      constructor <;> dsimp only

theorem prepare_ok (h : Sound s) {update : ComponentUpdate V}
    (hok : s.prepare vertexDelta edgeDelta = .ok update) :
    s.Admissible vertexDelta edgeDelta ∧ Prepared s vertexDelta edgeDelta update := by
  rcases prepare_cases h vertexDelta edgeDelta with ⟨update', hok', hrest⟩ | ⟨error, herror, -⟩
  · cases hok.symm.trans hok'
    exact hrest
  · cases hok.symm.trans herror

theorem sound_new : Sound (new : IncrementalComponents V) where
  vertex_cases v := .inl coeff_new
  nonneg e := le_of_eq coeff_new.symm
  ordered e he := absurd coeff_new he
  endpoints e he := absurd coeff_new he
  neighbors_iff a b := ⟨fun hab => absurd hab not_has_empty, fun hab =>
    absurd coeff_new hab⟩
  labels_iff v r := by
    refine ⟨fun hlabel => ?_, fun hv => absurd coeff_new hv.1⟩
    change (∅ : BTreeMap V V)[v]? = some r at hlabel
    rw [getElem?_empty] at hlabel
    cases hlabel
  labelled v hv := absurd coeff_new hv
  members_iff r v := by
    change (∅ : Adjacency V).Has r v ↔ (∅ : BTreeMap V V)[v]? = some r
    rw [getElem?_empty]
    exact ⟨fun hhas => absurd hhas not_has_empty, fun hnone =>
      absurd hnone.symm (some_ne_none r)⟩
  rows r row hrow := by
    change (∅ : Adjacency V)[r]? = some row at hrow
    rw [getElem?_empty] at hrow
    cases hrow

end IncrementalComponents

end FrankenGraph.Zset

import FrankenGraph.Zset.StrongTicks
import FrankenGraph.Zset.ComponentRuns
import FrankenGraph.Zset.ReachabilityRuns

/-!
# Runs of the incremental strong components

Results:
* `checkedPrepare_follows`: a refused request only ends a tick earlier
* `prepare_cases`: which ticks are accepted, and what they stage
* `Sound.commit`: a commit keeps the invariant
* `strong_components_exact`: labels, count, deltas and refusals along every run
* `strong_within_weak`: strong components lie within the weak ones kept beside them
-/

namespace FrankenGraph.Zset

open Std (ExtTreeMap ExtTreeSet)

variable {V : Type} [LinearOrder V]

namespace IncrementalStrongComponents

/-! ## Calls -/

/-- `prepare` (L232-352) with its requests; those between its checks are asked as one part. -/
def checkedPrepare (s : IncrementalStrongComponents V) (tick : ZSet V × ZSet (V × V)) :
    Effect (CallError ZSetError ComponentError) Answers (StrongComponentUpdate V) := do
  asking Checked.event
  let edges ← asking (Checked.prepareIntegration s.directed.edges tick.2)
  asking Checked.work
  let changes ← rounds Checked.event Checked.work checkEdge s.stageEdge edges.toList
    { touched := touchVertices tick.1, added := ∅, removed := ∅, addedReverse := ∅,
      removedReverse := ∅ }
  asking Checked.work
  let candidates := s.weak.affected changes.touched (s.weak.affectedRoots changes.touched)
  let weak ← s.weak.checkedPrepare tick
  asking Checked.work
  settling (s.finish edges changes candidates weak)

/-- A call of `prepare` whose update is committed or dropped. -/
def run (s : IncrementalStrongComponents V) (call : Call (ZSet V × ZSet (V × V))) :
    Ended (CallError ZSetError ComponentError) (ZSet (V × V)) × IncrementalStrongComponents V :=
  call.run checkedPrepare commit s

theorem checkedPrepare_follows (s : IncrementalStrongComponents V) (tick : ZSet V × ZSet (V × V)) :
    Follows (s.checkedPrepare tick) (s.prepare tick.1 tick.2) := by
  refine .asking_bind (Checked.request_computes _) ?_
  refine .asking_bind (Checked.prepareIntegration_computes s.directed.edges tick.2) ?_
  refine .asking_bind Checked.work_computes ?_
  refine (rounds_follows (Checked.request_computes _) Checked.work_computes _ _ _ _).bind
    fun changes _ => .asking_bind Checked.work_computes ?_
  refine (s.weak.checkedPrepare_follows tick).bind fun weak _ => ?_
  exact .asking_bind Checked.work_computes (.settling _)

variable {s : IncrementalStrongComponents V} {vertexDelta : ZSet V} {edgeDelta : ZSet (V × V)}

/-! ## The rules of a tick -/

/-- The rule that an error says is violated. -/
def Violates (s : IncrementalStrongComponents V) (vertexDelta : ZSet V) (edgeDelta : ZSet (V × V)) :
    ComponentError → Prop
  | .vertexMultiplicity =>
    ∃ v, s.weak.nextVertex vertexDelta v ≠ 0 ∧ s.weak.nextVertex vertexDelta v ≠ 1
  | .negativeEdgeMultiplicity => ∃ e, s.nextEdge edgeDelta e < 0
  | .missingEndpoint => ∃ a b, s.nextEdge edgeDelta (a, b) ≠ 0 ∧
    (s.weak.nextVertex vertexDelta a = 0 ∨ s.weak.nextVertex vertexDelta b = 0)
  | .cardinalityOverflow => False

/-- A tick meets every rule. -/
def Admissible (s : IncrementalStrongComponents V) (vertexDelta : ZSet V)
    (edgeDelta : ZSet (V × V)) : Prop :=
  ∀ error, ¬ s.Violates vertexDelta edgeDelta error

/-- The undirected projection of the edges after a tick. -/
theorem Sound.weak_nextEdge (h : Sound s) (a b : V) : s.weak.nextEdge edgeDelta (canonical a b) =
      if a = b then s.nextEdge edgeDelta (a, b)
      else s.nextEdge edgeDelta (a, b) + s.nextEdge edgeDelta (b, a) := by
  rw [IncrementalComponents.nextEdge, h.projected, coeff_normalized, pairDelta, pairDelta]
  unfold nextEdge
  split_ifs
  · rfl
  · omega

/-- A rule that the undirected projection violates is violated by the directed edges. -/
theorem Sound.violates_of_weak (h : Sound s) (hnonneg : ∀ e, 0 ≤ s.nextEdge edgeDelta e)
    {error : ComponentError} (hviolates : s.weak.Violates vertexDelta edgeDelta error) :
    s.Violates vertexDelta edgeDelta error := by
  cases error with
  | vertexMultiplicity => exact hviolates
  | negativeEdgeMultiplicity =>
    obtain ⟨e, hneg⟩ := hviolates
    have hone := hnonneg (e.1, e.2)
    have htwo := hnonneg (e.2, e.1)
    rw [← h.weak.canonical_of_nextEdge hneg.ne, h.weak_nextEdge] at hneg
    split_ifs at hneg
    · exact absurd hneg (not_lt.mpr hone)
    · omega
  | missingEndpoint =>
    obtain ⟨e, hlive, hgone⟩ := hviolates
    rw [← h.weak.canonical_of_nextEdge hlive, h.weak_nextEdge] at hlive
    by_cases hforward : s.nextEdge edgeDelta (e.1, e.2) = 0
    · refine ⟨e.2, e.1, ?_, hgone.symm⟩
      split_ifs at hlive
      · exact absurd hforward hlive
      · rwa [hforward, zero_add] at hlive
    · exact ⟨e.1, e.2, hforward, hgone⟩
  | cardinalityOverflow => exact hviolates

/-- Edges after a tick are edges of the undirected projection. -/
theorem Sound.weak_of_nextEdge (h : Sound s) (hnonneg : ∀ e, 0 ≤ s.nextEdge edgeDelta e) {a b : V}
    (hab : s.nextEdge edgeDelta (a, b) ≠ 0) : s.weak.nextEdge edgeDelta (canonical a b) ≠ 0 := by
  have hone := hnonneg (a, b)
  have htwo := hnonneg (b, a)
  rw [h.weak_nextEdge]
  split_ifs
  · exact hab
  · omega

/-- When the multiplicities are not negative and the undirected projection meets every rule, so do
the directed edges. -/
theorem Sound.admissible_of_weak (h : Sound s) (hnonneg : ∀ e, 0 ≤ s.nextEdge edgeDelta e)
    (hweak : s.weak.Admissible vertexDelta edgeDelta) : s.Admissible vertexDelta edgeDelta := by
  intro error hviolates
  cases error with
  | vertexMultiplicity => exact hweak .vertexMultiplicity hviolates
  | negativeEdgeMultiplicity =>
    obtain ⟨e, hneg⟩ := hviolates
    exact absurd hneg (not_lt.mpr (hnonneg e))
  | missingEndpoint =>
    obtain ⟨a, b, hlive, hgone⟩ := hviolates
    obtain ⟨ha, hb⟩ := IncrementalComponents.live_of_nextEdge hweak (h.weak_of_nextEdge hnonneg hlive)
    exact hgone.elim ha hb
  | cardinalityOverflow => exact hviolates

theorem Sound.checks_iff (h : Sound s) :
    (s.directed.edges.prepareIntegration edgeDelta).toList.findSome? checkEdge = none ↔
      ∀ e, 0 ≤ s.nextEdge edgeDelta e :=
  ZSet.refuses_none_iff _ h.nonneg edgeDelta

/-! ## Accepted ticks -/

/-- What an accepted tick has staged. -/
structure Prepared (s : IncrementalStrongComponents V) (vertexDelta : ZSet V)
    (edgeDelta : ZSet (V × V)) (update : StrongComponentUpdate V) : Prop where
  weak : IncrementalComponents.Prepared s.weak vertexDelta edgeDelta update.weak
  edges : update.edges = s.directed.edges.prepareIntegration edgeDelta
  changes : update.changes = s.changesOf vertexDelta edgeDelta
  candidates : update.candidates = s.tickCandidates vertexDelta edgeDelta
  labels_iff : ∀ v r : V, update.labels[v]? = some r ↔
    (v ∈ s.tickCandidates vertexDelta edgeDelta ∧ s.weak.nextVertex vertexDelta v ≠ 0) ∧
      StrongLeader (s.tickForward vertexDelta edgeDelta) v r
  labelled : ∀ v ∈ s.tickCandidates vertexDelta edgeDelta, s.weak.nextVertex vertexDelta v ≠ 0 →
    ∃ r, update.labels[v]? = some r
  count : update.count = s.membership.count -
    (s.oldRoots (s.tickCandidates vertexDelta edgeDelta)).size + (values update.labels).card
  delta : update.delta = rowDelta s.membership.labels update.labels
    (s.tickCandidates vertexDelta edgeDelta)

theorem mem_oldRoots {candidates : BTreeSet V} {r : V} :
    r ∈ s.oldRoots candidates ↔ ∃ v ∈ candidates, s.membership.labels[v]? = some r := by
  refine (BTreeSet.mem_foldl_lookup s.membership.labels _ _ r).trans ?_
  simp [ExtTreeSet.mem_toList]

theorem oldRoots_subset (candidates : BTreeSet V) :
    (s.oldRoots candidates).elements ⊆ values s.membership.labels := by
  intro r hr
  obtain ⟨v, -, hv⟩ := mem_oldRoots.mp (BTreeSet.mem_elements.mp hr)
  exact mem_values.mpr ⟨v, hv⟩

/-- The components of the live part of the region. -/
theorem Sound.classify_spec (h : Sound s) (hnonneg : ∀ e, 0 ≤ s.nextEdge edgeDelta e)
    (hweak : s.weak.Admissible vertexDelta edgeDelta) {live : BTreeSet V}
    (hlive : ∀ v, v ∈ live ↔ v ∈ s.tickCandidates vertexDelta edgeDelta ∧
      s.weak.nextVertex vertexDelta v ≠ 0) :
    ∃ m, classify s.directed (s.changesOf vertexDelta edgeDelta) live = .ok m ∧
      (∀ v r : V, m.labels[v]? = some r ↔
        v ∈ live ∧ StrongLeader (s.tickForward vertexDelta edgeDelta) v r) ∧
      (∀ v ∈ live, ∃ r, m.labels[v]? = some r) ∧ m.count = (values m.labels).card := by
  have hback : ∀ a b, a ∈ s.tickBackward vertexDelta edgeDelta b ↔
      b ∈ s.tickForward vertexDelta edgeDelta a := by
    intro a b
    rw [h.mem_tickForward, h.mem_tickBackward]
  have hclosed : ∀ a b, b ∈ s.tickForward vertexDelta edgeDelta a → (a ∈ live ↔ b ∈ live) := by
    intro a b hab
    rw [h.mem_tickForward] at hab
    obtain ⟨ha, hb⟩ := IncrementalComponents.live_of_nextEdge hweak (h.weak_of_nextEdge hnonneg hab)
    have hside : a ∈ s.tickCandidates vertexDelta edgeDelta ↔
        b ∈ s.tickCandidates vertexDelta edgeDelta := h.same_side (.inr hab)
    rw [hlive, hlive, hside]
    exact and_congr_right fun _ => iff_of_true ha hb
  exact strongComponents_spec hback hclosed _

/-- The live part of the region. -/
def tickLive (s : IncrementalStrongComponents V) (vertexDelta : ZSet V) (edgeDelta : ZSet (V × V))
    (weak : ComponentUpdate V) : BTreeSet V :=
  (s.tickCandidates vertexDelta edgeDelta).filter fun vertex =>
    present s.weak.vertices weak.vertices vertex

/-- `prepare` by the parts of the update, when no multiplicity is negative. -/
theorem prepare_of_checks
    (hchecks : (s.directed.edges.prepareIntegration edgeDelta).toList.findSome? checkEdge = none) :
    s.prepare vertexDelta edgeDelta = do
      let weak ← s.weak.prepare vertexDelta edgeDelta
      let next ← classify s.directed (s.changesOf vertexDelta edgeDelta)
        (s.tickLive vertexDelta edgeDelta weak)
      let count ← IncrementalComponents.replaceCount s.membership.count
        (s.oldRoots (s.tickCandidates vertexDelta edgeDelta)).size next.count
      return {
        weak
        edges := s.directed.edges.prepareIntegration edgeDelta
        changes := s.changesOf vertexDelta edgeDelta
        candidates := s.tickCandidates vertexDelta edgeDelta
        labels := next.labels
        count
        delta := rowDelta s.membership.labels next.labels
          (s.tickCandidates vertexDelta edgeDelta) } := by
  have hloop := foldlM_guarded checkEdge s.stageEdge
    (s.directed.edges.prepareIntegration edgeDelta).toList
    { touched := touchVertices vertexDelta, added := ∅, removed := ∅, addedReverse := ∅,
      removedReverse := ∅ }
  rw [hchecks] at hloop
  unfold prepare
  dsimp only
  rw [hloop]
  rfl

/-- A tick that meets every rule is accepted; any other fails with an error whose rule it
violates. -/
theorem prepare_cases (h : Sound s) (vertexDelta : ZSet V) (edgeDelta : ZSet (V × V)) :
    (∃ update, s.prepare vertexDelta edgeDelta = .ok update ∧
      (∀ e, 0 ≤ s.nextEdge edgeDelta e) ∧ s.weak.Admissible vertexDelta edgeDelta ∧
      Prepared s vertexDelta edgeDelta update) ∨
    ∃ error, s.prepare vertexDelta edgeDelta = .error error ∧
      s.Violates vertexDelta edgeDelta error := by
  cases hchecks : (s.directed.edges.prepareIntegration edgeDelta).toList.findSome? checkEdge with
  | some error =>
    obtain ⟨c, hc, hcheck⟩ := List.exists_of_findSome?_eq_some hchecks
    have hloop := foldlM_guarded checkEdge s.stageEdge
      (s.directed.edges.prepareIntegration edgeDelta).toList
      { touched := touchVertices vertexDelta, added := ∅, removed := ∅, addedReverse := ∅,
        removedReverse := ∅ }
    rw [hchecks] at hloop
    refine .inr ⟨error, ?_, ?_⟩
    · unfold prepare
      dsimp only
      rw [hloop]
      rfl
    · unfold checkEdge at hcheck
      split_ifs at hcheck with hneg
      cases hcheck
      have hnext := (ZSet.lookup_weights (ExtTreeMap.mem_toList_iff_getElem?_eq_some.mp hc)).1
      exact ⟨c.1, lt_of_eq_of_lt hnext.symm hneg⟩
  | none =>
    have hnonneg := h.checks_iff.mp hchecks
    rw [prepare_of_checks hchecks]
    rcases IncrementalComponents.prepare_cases h.weak vertexDelta edgeDelta with
      ⟨weak, hok, hweak, hprepared⟩ | ⟨error, herror, hviolates⟩
    · have hlive : ∀ v, v ∈ s.tickLive vertexDelta edgeDelta weak ↔
          v ∈ s.tickCandidates vertexDelta edgeDelta ∧ s.weak.nextVertex vertexDelta v ≠ 0 := by
        intro v
        rw [tickLive, BTreeSet.mem_filter, hprepared.vertices, IncrementalComponents.present_iff]
      obtain ⟨m, hm, hlabels, hlabelled, hcount⟩ := h.classify_spec hnonneg hweak hlive
      have hroots : (s.oldRoots (s.tickCandidates vertexDelta edgeDelta)).size ≤
          s.membership.count := by
        rw [h.count_eq, ← BTreeSet.card_elements]
        exact Finset.card_le_card (oldRoots_subset _)
      have hreplace : IncrementalComponents.replaceCount s.membership.count
          (s.oldRoots (s.tickCandidates vertexDelta edgeDelta)).size m.count =
          .ok (s.membership.count - (s.oldRoots (s.tickCandidates vertexDelta edgeDelta)).size +
            m.count) := if_neg (Nat.not_lt.mpr hroots)
      rw [hok, ok_bind, hm, ok_bind, hreplace, ok_bind]
      refine .inl ⟨_, rfl, hnonneg, hweak, hprepared, rfl, rfl, rfl, fun v r => ?_,
        fun v hv hnext => hlabelled v ((hlive v).mpr ⟨hv, hnext⟩), ?_, rfl⟩
      · rw [hlabels, hlive]
      · rw [← hcount]
    · rw [herror]
      exact .inr ⟨error, rfl, h.violates_of_weak hnonneg hviolates⟩

variable {update : StrongComponentUpdate V}

theorem prepare_ok (h : Sound s) (hok : s.prepare vertexDelta edgeDelta = .ok update) :
    (∀ e, 0 ≤ s.nextEdge edgeDelta e) ∧ s.weak.Admissible vertexDelta edgeDelta ∧
      Prepared s vertexDelta edgeDelta update := by
  rcases prepare_cases h vertexDelta edgeDelta with ⟨update', hok', hrest⟩ | ⟨error, herror, -⟩
  · cases hok.symm.trans hok'
    exact hrest
  · cases hok.symm.trans herror

/-! ## Commits -/

section

variable (hprepared : Prepared s vertexDelta edgeDelta update)
include hprepared

theorem coeff_edges_commit (e : V × V) :
    (s.commit update).1.directed.edges.coeff e = s.nextEdge edgeDelta e := by
  change (s.directed.edges.publish update.edges).coeff e = _
  rw [hprepared.edges, ZSet.coeff_publish_prepareIntegration]
  rfl

theorem labels_inside {v : V} (hv : v ∈ s.tickCandidates vertexDelta edgeDelta) :
    (s.commit update).1.membership.labels[v]? = update.labels[v]? := by
  refine (BTreeMap.lookup_extend _ _ v).trans ?_
  rw [BTreeMap.lookup_foldl_erase, hprepared.candidates, if_pos (ExtTreeSet.mem_toList.mpr hv),
    Option.or_none]

theorem labels_outside {v : V} (hv : v ∉ s.tickCandidates vertexDelta edgeDelta) :
    (s.commit update).1.membership.labels[v]? = s.membership.labels[v]? := by
  have hnone : update.labels[v]? = none := by
    cases hlabel : update.labels[v]? with
    | none => rfl
    | some r => exact absurd ((hprepared.labels_iff v r).mp hlabel).1.1 hv
  refine (BTreeMap.lookup_extend _ _ v).trans ?_
  rw [BTreeMap.lookup_foldl_erase, hprepared.candidates, hnone, Option.none_or, if_neg]
  rwa [ExtTreeSet.mem_toList]

end

section Committed

variable {update : StrongComponentUpdate V} (h : Sound s)
  (hprepared : Prepared s vertexDelta edgeDelta update)

include h

/-- Strong components before the tick do not cross the border of the region. -/
theorem Sound.side_of_strong {v u : V} (hstrong : Strong s.leadsTo v u) :
    v ∈ s.tickCandidates vertexDelta edgeDelta ↔ u ∈ s.tickCandidates vertexDelta edgeDelta := by
  have hclosed : ∀ a b, a ∈ s.tickCandidates vertexDelta edgeDelta → b ∈ s.leadsTo a →
      b ∈ s.tickCandidates vertexDelta edgeDelta := by
    intro a b ha hab
    rw [h.mem_leadsTo] at hab
    exact (h.same_side (.inl hab)).mp ha
  exact ⟨fun hv => hstrong.1.inside hclosed hv, fun hu => hstrong.2.inside hclosed hu⟩

include hprepared

/-- The roots of the new components lie in the region. -/
theorem root_inside {v r : V} (hlabel : update.labels[v]? = some r) :
    r ∈ s.tickCandidates vertexDelta edgeDelta := by
  obtain ⟨⟨hv, -⟩, hleader⟩ := (hprepared.labels_iff v r).mp hlabel
  refine hleader.1.1.inside (fun a b ha hab => ?_) hv
  rw [h.mem_tickForward] at hab
  exact (h.same_side (.inr hab)).mp ha

theorem count_commit : update.count = (values (s.commit update).1.membership.labels).card := by
  rw [hprepared.count, h.count_eq, ← BTreeSet.card_elements]
  refine (BTreeMap.card_replace (oldRoots_subset _) (fun r => ?_) fun r hnext hold => ?_).2.symm
  · rw [mem_values, mem_values, mem_values, BTreeSet.mem_elements, mem_oldRoots]
    constructor
    · rintro ⟨v, hv⟩
      by_cases hinside : v ∈ s.tickCandidates vertexDelta edgeDelta
      · rw [labels_inside hprepared hinside] at hv
        exact .inr ⟨v, hv⟩
      · rw [labels_outside hprepared hinside] at hv
        refine .inl ⟨⟨v, hv⟩, ?_⟩
        -- Vertices with one label are in one component, so on one side.
        rintro ⟨u, hu, hlabel⟩
        have hstrong := ((h.labels_iff u r).mp hlabel).2.1.trans ((h.labels_iff v r).mp hv).2.1.symm
        exact hinside ((h.side_of_strong hstrong).mp hu)
    · rintro (⟨⟨v, hv⟩, hnot⟩ | ⟨v, hv⟩)
      · have hout : v ∉ s.tickCandidates vertexDelta edgeDelta := fun hin => hnot ⟨v, hin, hv⟩
        exact ⟨v, (labels_outside hprepared hout).trans hv⟩
      · exact ⟨v, (labels_inside hprepared ((hprepared.labels_iff v r).mp hv).1.1).trans hv⟩
  · obtain ⟨v, hv⟩ := mem_values.mp hnext
    obtain ⟨u, hu⟩ := mem_values.mp hold
    rw [BTreeSet.mem_elements, mem_oldRoots]
    refine ⟨u, ?_, hu⟩
    exact (h.side_of_strong ((h.labels_iff u r).mp hu).2.1).mpr (root_inside h hprepared hv)

theorem Sound.commit (hnonneg : ∀ e, 0 ≤ s.nextEdge edgeDelta e)
    (hweak : s.weak.Admissible vertexDelta edgeDelta) : Sound (s.commit update).1 := by
  have hvertices : ∀ v, (s.commit update).1.weak.vertices.coeff v =
      s.weak.nextVertex vertexDelta v :=
    IncrementalComponents.coeff_vertices_commit hprepared.weak
  have houtgoing : ∀ a b, (s.commit update).1.directed.outgoing.Has a b ↔
      s.nextEdge edgeDelta (a, b) ≠ 0 := by
    intro a b
    refine Adjacency.has_extend.trans ?_
    rw [Adjacency.has_foldl_unlink_rows, hprepared.changes, (has_added a b).1, (has_removed a b).1,
      h.outgoing_iff]
    tauto
  have hleads : ∀ a b, b ∈ (s.commit update).1.leadsTo a ↔
      b ∈ s.tickForward vertexDelta edgeDelta a := by
    intro a b
    rw [h.mem_tickForward, leadsTo, ExtTreeSet.mem_toList]
    exact houtgoing a b
  refine ⟨?_, fun e => ?_, fun a b => ?_, fun a b => ?_, fun a b => ?_, fun v r => ?_, fun v hv => ?_,
    count_commit h hprepared⟩
  · exact h.weak.commit hprepared.weak hweak
  · rw [coeff_edges_commit hprepared]
    exact hnonneg e
  · refine (IncrementalComponents.coeff_edges_commit hprepared.weak _).trans ?_
    rw [h.weak_nextEdge, pairDelta, coeff_edges_commit hprepared, coeff_edges_commit hprepared]
  · rw [coeff_edges_commit hprepared]
    exact houtgoing a b
  · rw [coeff_edges_commit hprepared]
    refine (Adjacency.has_foldl_link_converse _ _ b a).trans ?_
    rw [Adjacency.has_foldl_unlink_converse, hprepared.changes, (has_added a b).1,
      (has_removed a b).1, h.incoming_iff]
    tauto
  · rw [hvertices, strongLeader_of_mem_iff hleads]
    by_cases hinside : v ∈ s.tickCandidates vertexDelta edgeDelta
    · rw [labels_inside hprepared hinside, hprepared.labels_iff]
      simp only [hinside, true_and]
    · rw [labels_outside hprepared hinside, h.labels_iff, IncrementalComponents.nextVertex,
        vertex_outside hinside, add_zero]
      have hsame : {u | Strong (s.tickForward vertexDelta edgeDelta) v u} =
          {u | Strong s.leadsTo v u} := Set.ext (h.strong_outside hinside)
      rw [StrongLeader, StrongLeader, hsame]
  · rw [hvertices] at hv
    by_cases hinside : v ∈ s.tickCandidates vertexDelta edgeDelta
    · rw [labels_inside hprepared hinside]
      exact hprepared.labelled v hinside hv
    · rw [IncrementalComponents.nextVertex, vertex_outside hinside, add_zero] at hv
      rw [labels_outside hprepared hinside]
      exact h.labelled v hv

omit h in
/-- The returned delta is the difference of the label rows. -/
theorem coeff_delta (v r : V) : (s.commit update).2.coeff (v, r) =
      (if (s.commit update).1.representative v = some r then 1 else 0) -
        (if s.representative v = some r then 1 else 0) := by
  change update.delta.coeff (v, r) = _
  rw [hprepared.delta]
  exact coeff_rowDelta_of_outside (fun u hu => labels_inside hprepared hu)
    (fun u hu => labels_outside hprepared hu) v r

end Committed

theorem sound_new : Sound (new : IncrementalStrongComponents V) := by
  have hnone : ∀ v r : V, (new : IncrementalStrongComponents V).membership.labels[v]? ≠ some r := by
    intro v r hlabel
    change (∅ : BTreeMap V V)[v]? = some r at hlabel
    rw [ExtTreeMap.getElem?_empty] at hlabel
    cases hlabel
  have hzero : ∀ e : V × V, (new : IncrementalStrongComponents V).directed.edges.coeff e = 0 :=
    fun e => ZSet.coeff_new
  refine ⟨IncrementalComponents.sound_new, fun e => (hzero e).ge, fun a b => ?_, fun a b => ?_,
    fun a b => ?_, fun v r => ?_, fun v hv => absurd ZSet.coeff_new hv, rfl⟩
  · rw [pairDelta, hzero, hzero]
    refine (ZSet.coeff_new (k := canonical a b)).trans ?_
    split_ifs <;> rfl
  · exact iff_of_false Adjacency.not_has_empty (not_not.mpr (hzero _))
  · exact iff_of_false Adjacency.not_has_empty (not_not.mpr (hzero _))
  · exact iff_of_false (hnone v r) fun hv => hv.1 ZSet.coeff_new

end IncrementalStrongComponents

/-! ## Runs -/

/-- The strongly connected component of a vertex in the graph of the edges of positive
multiplicity. -/
def strongComponentOf (inputs : List (ZSet V × ZSet (V × V))) (v : V) : Set V :=
  {u | Relation.ReflTransGen (directedEdge (inputs.map Prod.snd)) v u ∧
    Relation.ReflTransGen (directedEdge (inputs.map Prod.snd)) u v}

/-- The integrated inputs break the rule that an error names. -/
def StrongBreaks (inputs : List (ZSet V × ZSet (V × V))) : ComponentError → Prop
  | .vertexMultiplicity => ∃ v, vertexBag inputs v ≠ 0 ∧ vertexBag inputs v ≠ 1
  | .negativeEdgeMultiplicity => ∃ a b, directedBag (inputs.map Prod.snd) a b < 0
  | .missingEndpoint => ∃ a b, directedBag (inputs.map Prod.snd) a b ≠ 0 ∧
    (vertexBag inputs a = 0 ∨ vertexBag inputs b = 0)
  | .cardinalityOverflow => False

/-- The states that committed ticks lead to, with their inputs. A tick that fails, or whose guard is
dropped, publishes nothing. -/
inductive StrongRuns : List (ZSet V × ZSet (V × V)) → IncrementalStrongComponents V → Prop where
  | start : StrongRuns [] .new
  | commit {inputs : List (ZSet V × ZSet (V × V))} {s : IncrementalStrongComponents V}
      {tick : ZSet V × ZSet (V × V)} {update : StrongComponentUpdate V}
      (hrun : StrongRuns inputs s) (hok : s.prepare tick.1 tick.2 = .ok update) :
      StrongRuns (inputs ++ [tick]) (s.commit update).1

namespace StrongRuns

variable {inputs : List (ZSet V × ZSet (V × V))} {s : IncrementalStrongComponents V}

theorem directedBag_concat (inputs : List (ZSet V × ZSet (V × V))) (tick : ZSet V × ZSet (V × V))
    (a b : V) : directedBag ((inputs ++ [tick]).map Prod.snd) a b =
      directedBag (inputs.map Prod.snd) a b + tick.2.coeff (a, b) := by
  simp [directedBag]

variable (h : StrongRuns inputs s)
include h

theorem sound : s.Sound ∧ (∀ v, s.weak.vertices.coeff v = vertexBag inputs v) ∧
      ∀ a b, s.directed.edges.coeff (a, b) = directedBag (inputs.map Prod.snd) a b := by
  induction h with
  | start =>
    exact ⟨IncrementalStrongComponents.sound_new, fun v => ZSet.coeff_new, fun a b => ZSet.coeff_new⟩
  | commit hrun hok ih =>
    obtain ⟨hsound, hvertices, hedges⟩ := ih
    obtain ⟨hnonneg, hweak, hprepared⟩ := IncrementalStrongComponents.prepare_ok hsound hok
    refine ⟨hsound.commit hprepared hnonneg hweak, fun v => ?_, fun a b => ?_⟩
    · refine (IncrementalComponents.coeff_vertices_commit hprepared.weak v).trans ?_
      rw [IncrementalComponents.nextVertex, hvertices, vertexBag_concat]
    · rw [IncrementalStrongComponents.coeff_edges_commit hprepared,
        IncrementalStrongComponents.nextEdge, hedges, directedBag_concat]

/-- A tick breaks a rule for the state exactly when the integrated inputs break it. -/
theorem violates_iff (tick : ZSet V × ZSet (V × V)) (error : ComponentError) :
    s.Violates tick.1 tick.2 error ↔ StrongBreaks (inputs ++ [tick]) error := by
  obtain ⟨-, hvertices, hedges⟩ := h.sound
  have hvertex : ∀ v, s.weak.nextVertex tick.1 v = vertexBag (inputs ++ [tick]) v := fun v => by
    rw [IncrementalComponents.nextVertex, hvertices, vertexBag_concat]
  have hedge : ∀ a b, s.nextEdge tick.2 (a, b) =
      directedBag ((inputs ++ [tick]).map Prod.snd) a b := fun a b => by
    rw [IncrementalStrongComponents.nextEdge, hedges, directedBag_concat]
  unfold IncrementalStrongComponents.Violates StrongBreaks
  cases error with
  | vertexMultiplicity => simp only [hvertex]
  | negativeEdgeMultiplicity => simp only [Prod.exists, hedge]
  | missingEndpoint => simp only [hvertex, hedge]
  | cardinalityOverflow => exact Iff.rfl

theorem mem_leadsTo (a b : V) : b ∈ s.leadsTo a ↔ directedEdge (inputs.map Prod.snd) a b := by
  obtain ⟨hsound, -, hedges⟩ := h.sound
  have hnonneg := hsound.nonneg (a, b)
  rw [hsound.mem_leadsTo, directedEdge]
  rw [hedges] at hnonneg ⊢
  omega

theorem strong_iff (v u : V) : Strong s.leadsTo v u ↔ u ∈ strongComponentOf inputs v := by
  have hedge : (fun a b => b ∈ s.leadsTo a) = directedEdge (inputs.map Prod.snd) :=
    funext₂ fun a b => propext (h.mem_leadsTo a b)
  unfold Strong Connected
  rw [hedge]
  rfl

/-- The label of a live vertex is the least vertex of its component. -/
theorem representative_iff (v r : V) : s.representative v = some r ↔
      vertexBag inputs v = 1 ∧ IsLeast (strongComponentOf inputs v) r := by
  obtain ⟨hsound, hvertices, -⟩ := h.sound
  have hlive : s.weak.vertices.coeff v ≠ 0 ↔ vertexBag inputs v = 1 := by
    have hcases := hsound.weak.vertex_cases v
    rw [hvertices] at hcases ⊢
    omega
  have hset : {u | Strong s.leadsTo v u} = strongComponentOf inputs v := Set.ext (h.strong_iff v)
  refine (hsound.labels_iff v r).trans ?_
  rw [hlive, StrongLeader, hset]

/-- The number of labels is the number of components of live vertices. -/
theorem componentCount_eq :
    s.componentCount = Set.ncard {c | ∃ v, vertexBag inputs v = 1 ∧ strongComponentOf inputs v = c} := by
  obtain ⟨hsound, hvertices, -⟩ := h.sound
  have hroot : ∀ v r, IsLeast (strongComponentOf inputs v) r →
      strongComponentOf inputs v = strongComponentOf inputs r := by
    intro v r hr
    have hvr := (h.strong_iff v r).mpr hr.1
    ext u
    rw [← h.strong_iff, ← h.strong_iff]
    exact ⟨hvr.symm.trans, hvr.trans⟩
  have hcomponents : {c | ∃ v, vertexBag inputs v = 1 ∧ strongComponentOf inputs v = c} =
      Set.image (strongComponentOf inputs) (values s.membership.labels) := by
    ext c
    constructor
    · rintro ⟨v, hv, rfl⟩
      obtain ⟨r, hr⟩ := hsound.labelled v (by rw [hvertices, hv]; exact one_ne_zero)
      have hleast := ((h.representative_iff v r).mp hr).2
      exact ⟨r, Finset.mem_coe.mpr (mem_values.mpr ⟨v, hr⟩), (hroot v r hleast).symm⟩
    · rintro ⟨r, hr, rfl⟩
      obtain ⟨v, hv⟩ := mem_values.mp (Finset.mem_coe.mp hr)
      obtain ⟨hlive, hleast⟩ := (h.representative_iff v r).mp hv
      exact ⟨v, hlive, hroot v r hleast⟩
  have hinjective : Set.InjOn (strongComponentOf inputs) (values s.membership.labels) := by
    intro r hr r' hr' heq
    obtain ⟨v, hv⟩ := mem_values.mp (Finset.mem_coe.mp hr)
    obtain ⟨v', hv'⟩ := mem_values.mp (Finset.mem_coe.mp hr')
    have hleast := ((h.representative_iff v r).mp hv).2
    have hleast' := ((h.representative_iff v' r').mp hv').2
    rw [hroot v r hleast] at hleast
    rw [hroot v' r' hleast'] at hleast'
    rw [heq] at hleast
    exact hleast.unique hleast'
  rw [hcomponents, hinjective.ncard_image, Set.ncard_coe_finset]
  exact hsound.count_eq

end StrongRuns

/-- Along every run: the labels send exactly the live vertices to the least vertex of their strongly
connected component, a vertex that no edge leaves to itself; the count is the number of components;
the returned delta is the difference of the label rows. A call commits what was prepared, or it leaves
the state as it was. It fails with an error of its own only when the integrated inputs break the rule
of that error. When no request is refused, it is accepted exactly when they break no rule, so a missing
endpoint is reported exactly when there is one, unless a multiplicity is out of range. -/
theorem strong_components_exact (inputs : List (ZSet V × ZSet (V × V)))
    (s : IncrementalStrongComponents V) (h : StrongRuns inputs s) :
    (∀ v r, s.representative v = some r ↔
      vertexBag inputs v = 1 ∧ IsLeast (strongComponentOf inputs v) r) ∧
    (∀ v, (∃ r, s.representative v = some r) ↔ vertexBag inputs v = 1) ∧
    (∀ v, vertexBag inputs v = 1 → (∀ u, ¬ directedEdge (inputs.map Prod.snd) v u) →
      s.representative v = some v) ∧
    s.componentCount = Set.ncard {c | ∃ v, vertexBag inputs v = 1 ∧ strongComponentOf inputs v = c} ∧
    ∀ call : Call (ZSet V × ZSet (V × V)),
      Transacts (s.prepare call.input.1 call.input.2) s.commit call s (s.run call) ∧
      (∀ output, (s.run call).1 = .committed output → ∀ v r, output.coeff (v, r) =
        (if (s.run call).2.representative v = some r then 1 else 0) -
          (if s.representative v = some r then 1 else 0)) ∧
      (false ∉ call.answers → ((∀ error, (s.run call).1 ≠ .failed error) ↔
        ∀ error, ¬ StrongBreaks (inputs ++ [call.input]) error)) ∧
      (∀ error, (s.run call).1 = .failed (.own error) → StrongBreaks (inputs ++ [call.input]) error) ∧
      (false ∉ call.answers → ¬ StrongBreaks (inputs ++ [call.input]) .vertexMultiplicity →
        ¬ StrongBreaks (inputs ++ [call.input]) .negativeEdgeMultiplicity →
        ((s.run call).1 = .failed (.own .missingEndpoint) ↔
          StrongBreaks (inputs ++ [call.input]) .missingEndpoint)) := by
  obtain ⟨hsound, hvertices, -⟩ := h.sound
  refine ⟨h.representative_iff, fun v => ?_, fun v hv hleaves => ?_, h.componentCount_eq,
    fun call => ?_⟩
  · refine ⟨fun hlabel => ((h.representative_iff v _).mp hlabel.choose_spec).1, fun hlive => ?_⟩
    refine hsound.labelled v ?_
    rw [hvertices, hlive]
    exact one_ne_zero
  · refine (h.representative_iff v v).mpr ⟨hv, ⟨.refl, .refl⟩, fun u hu => ?_⟩
    rcases Relation.ReflTransGen.cases_head hu.1 with heq | ⟨w, hw, -⟩
    · exact heq.le
    · exact absurd hw (hleaves w)
  have hcall : Transacts _ _ call s (s.run call) :=
    Call.run_transacts (s.checkedPrepare_follows call.input)
  have hcases := IncrementalStrongComponents.prepare_cases hsound call.input.1 call.input.2
  have herrors : ∀ error, s.prepare call.input.1 call.input.2 = .error error →
      StrongBreaks (inputs ++ [call.input]) error := by
    intro error herror
    rcases hcases with ⟨update, hok, -⟩ | ⟨error', herror', hviolates⟩
    · cases herror.symm.trans hok
    · cases herror.symm.trans herror'
      exact (h.violates_iff _ error).mp hviolates
  have hkeeps : ∀ update, s.prepare call.input.1 call.input.2 = .ok update →
      ∀ error, ¬ StrongBreaks (inputs ++ [call.input]) error := by
    intro update hok error hbreaks
    obtain ⟨hnonneg, hweak, -⟩ := IncrementalStrongComponents.prepare_ok hsound hok
    exact hsound.admissible_of_weak hnonneg hweak error ((h.violates_iff _ error).mpr hbreaks)
  refine ⟨hcall, fun output hcommitted v r => ?_, fun hgranted => ?_,
    fun error hfailed => herrors error (hcall.own_error error hfailed),
    fun hgranted hvertex hnegative => ?_⟩
  · obtain ⟨update, hok, hstate, rfl⟩ := hcall.committed output hcommitted
    obtain ⟨-, -, hprepared⟩ := IncrementalStrongComponents.prepare_ok hsound hok
    rw [hstate]
    exact IncrementalStrongComponents.coeff_delta hprepared v r
  · rw [hcall.accepted_iff hgranted]
    refine ⟨fun ⟨update, hok⟩ => hkeeps update hok, fun hkept => ?_⟩
    rcases hcases with ⟨update, hok, -⟩ | ⟨error, herror, -⟩
    · exact ⟨update, hok⟩
    · exact absurd (herrors error herror) (hkept error)
  · rw [hcall.failed_iff hgranted]
    refine ⟨herrors _, fun hmissing => ?_⟩
    rcases hcases with ⟨update, hok, -⟩ | ⟨error, herror, -⟩
    · exact absurd hmissing (hkeeps update hok _)
    · have hbreaks := herrors error herror
      cases error with
      | vertexMultiplicity => exact absurd hbreaks hvertex
      | negativeEdgeMultiplicity => exact absurd hbreaks hnegative
      | missingEndpoint => exact herror
      | cardinalityOverflow => exact hbreaks.elim

/-- One tick inserts a cycle of two vertices: they form one component, which has the lesser vertex for
its label. -/
theorem strong_components_exact_sample : ∃ s : IncrementalStrongComponents Nat,
      StrongRuns [(ZSet.fromUpdates [(1, 1), (2, 1)], ZSet.fromUpdates [((1, 2), 1), ((2, 1), 1)])] s ∧
        s.representative 2 = some 1 ∧ IsLeast (strongComponentOf
          [(ZSet.fromUpdates [(1, 1), (2, 1)], ZSet.fromUpdates [((1, 2), 1), ((2, 1), 1)])] 2) 1 := by
  have hlabel : (IncrementalStrongComponents.new.prepare (ZSet.fromUpdates [(1, 1), (2, 1)])
      (ZSet.fromUpdates [((1, 2), 1), ((2, 1), 1)])).toOption.bind
        (fun update => (IncrementalStrongComponents.new.commit update).1.representative 2) =
          some 1 := by
    decide +kernel
  cases hok : IncrementalStrongComponents.new.prepare (ZSet.fromUpdates [(1, 1), (2, 1)])
      (ZSet.fromUpdates [((1, 2), 1), ((2, 1), 1)]) with
  | error error =>
    rw [hok] at hlabel
    cases hlabel
  | ok update =>
    rw [hok] at hlabel
    have hrun := @StrongRuns.commit Nat _ [] .new (_, _) update .start hok
    exact ⟨_, hrun, hlabel, (((strong_components_exact _ _ hrun).1 2 1).mp hlabel).2⟩

/-- An endpoint is missing, but the error returned is the one for a negative multiplicity. -/
theorem missing_endpoint_not_reported : StrongBreaks [((ZSet.fromUpdates [] : ZSet Nat),
        ZSet.fromUpdates [((1, 2), 1), ((3, 3), -1)])] .missingEndpoint ∧
      ∃ e, (IncrementalStrongComponents.new : IncrementalStrongComponents Nat).prepare
        (ZSet.fromUpdates []) (ZSet.fromUpdates [((1, 2), 1), ((3, 3), -1)]) = .error e ∧
        e ≠ .missingEndpoint := by
  refine ⟨⟨1, 2, by decide, by decide⟩, .negativeEdgeMultiplicity, rfl, by decide⟩

/-- The strong operator runs the undirected one on the same ticks, and every strong component lies
within one weak component. -/
theorem strong_within_weak {inputs : List (ZSet V × ZSet (V × V))}
    {s : IncrementalStrongComponents V} (h : StrongRuns inputs s) :
    ComponentRuns inputs s.weak ∧ ∀ a b r, s.representative a = some r →
      s.representative b = some r → s.weak.labels[a]? = s.weak.labels[b]? := by
  refine ⟨?_, fun a b r ha hb => ?_⟩
  · induction h with
    | start => exact .start
    | commit hrun hok ih =>
      obtain ⟨hsound, -⟩ := hrun.sound
      have hnonneg := (IncrementalStrongComponents.prepare_ok hsound hok).1
      rw [IncrementalStrongComponents.prepare_of_checks (hsound.checks_iff.mpr hnonneg)] at hok
      obtain ⟨weak, hweak, hok⟩ := bind_eq_ok.mp hok
      obtain ⟨next, -, hok⟩ := bind_eq_ok.mp hok
      obtain ⟨count, -, hok⟩ := bind_eq_ok.mp hok
      cases hok
      exact .commit ih hweak
  · obtain ⟨hsound, -⟩ := h.sound
    have hlabel {v : V} (hv : s.representative v = some r) :
        s.weak.labels[v]? = s.weak.labels[r]? := by
      obtain ⟨hlive, hstrong, -⟩ := (hsound.labels_iff v r).mp hv
      obtain ⟨x, hx⟩ := hsound.weak.labelled v hlive
      have hpath : Connected s.weak.adjacentTo v r :=
        Relation.ReflTransGen.mono
          (fun a b hab => hsound.weak_of_edge ((hsound.mem_leadsTo a b).mp hab)) _ _ hstrong.1
      rw [hx, hsound.weak.label_of_connected hx hpath]
    rw [hlabel ha, hlabel hb]

/-- One tick inserts a cycle of two vertices: they have one weak label. -/
theorem strong_within_weak_sample : ∃ s : IncrementalStrongComponents Nat,
    ComponentRuns [(ZSet.fromUpdates [(1, 1), (2, 1)], ZSet.fromUpdates [((1, 2), 1), ((2, 1), 1)])]
      s.weak ∧ s.weak.labels[1]? = s.weak.labels[2]? := by
  have hlabels : (IncrementalStrongComponents.new.prepare (ZSet.fromUpdates [(1, 1), (2, 1)])
      (ZSet.fromUpdates [((1, 2), 1), ((2, 1), 1)])).toOption.map (fun update =>
        let s := (IncrementalStrongComponents.new.commit update).1
        (s.representative 1, s.representative 2)) = some (some 1, some 1) := by
    decide +kernel
  cases hok : IncrementalStrongComponents.new.prepare (ZSet.fromUpdates [(1, 1), (2, 1)])
      (ZSet.fromUpdates [((1, 2), 1), ((2, 1), 1)]) with
  | error error =>
    rw [hok] at hlabels
    cases hlabels
  | ok update =>
    rw [hok] at hlabels
    have hpair := Prod.mk.inj (Option.some.inj hlabels)
    have hweak := strong_within_weak (@StrongRuns.commit Nat _ [] .new (_, _) update .start hok)
    exact ⟨_, hweak.1, hweak.2 1 2 1 hpair.1 hpair.2⟩

end FrankenGraph.Zset

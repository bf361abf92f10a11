import FrankenGraph.Zset.Strong

/-!
# Ticks of the incremental strong components

The region of a tick is made of whole undirected components, so no edge enters or leaves it, and the
components found inside it are those of the whole graph.

Results:
* `Sound.mem_tickForward`, `Sound.mem_tickBackward`: the edges that `classify` sees
* `Sound.same_side`: no edge enters or leaves the region
* `Sound.strong_outside`: outside it, strong components do not change
-/

namespace FrankenGraph.Zset

open IncrementalComponents Adjacency

open Std (ExtTreeMap ExtTreeSet)

variable {V : Type} [LinearOrder V]

namespace IncrementalStrongComponents

/-- The neighbours that edges lead to. -/
def leadsTo (s : IncrementalStrongComponents V) (v : V) : List V :=
  (s.directed.outgoing.row v).toList

/-- The directed edges add up to the undirected ones, and labels and count are those of the strongly
connected components. -/
structure Sound (s : IncrementalStrongComponents V) : Prop where
  weak : s.weak.Sound
  nonneg : ∀ e, 0 ≤ s.directed.edges.coeff e
  projected : ∀ a b, s.weak.edges.coeff (canonical a b) = pairDelta s.directed.edges a b
  outgoing_iff : ∀ a b, s.directed.outgoing.Has a b ↔ s.directed.edges.coeff (a, b) ≠ 0
  incoming_iff : ∀ a b, s.directed.incoming.Has b a ↔ s.directed.edges.coeff (a, b) ≠ 0
  labels_iff : ∀ v r : V, s.membership.labels[v]? = some r ↔
    s.weak.vertices.coeff v ≠ 0 ∧ StrongLeader s.leadsTo v r
  labelled : ∀ v, s.weak.vertices.coeff v ≠ 0 → ∃ r, s.membership.labels[v]? = some r
  count_eq : s.membership.count = (values s.membership.labels).card

variable {s : IncrementalStrongComponents V} {vertexDelta : ZSet V} {edgeDelta : ZSet (V × V)}

/-- The multiplicity of a directed edge after a tick. -/
def nextEdge (s : IncrementalStrongComponents V) (edgeDelta : ZSet (V × V)) (e : V × V) : Int :=
  s.directed.edges.coeff e + edgeDelta.coeff e

/-! ## The staged edges -/

/-- What the loop over the edges stages. -/
def changesOf (s : IncrementalStrongComponents V) (vertexDelta : ZSet V) (edgeDelta : ZSet (V × V)) :
    DirectedChanges V :=
  (s.directed.edges.prepareIntegration edgeDelta).toList.foldl s.stageEdge
    { touched := touchVertices vertexDelta, added := ∅, removed := ∅, addedReverse := ∅,
      removedReverse := ∅ }

/-- An entry inserts an edge. -/
def Inserts (s : IncrementalStrongComponents V) (c : (V × V) × Int) : Prop :=
  s.directed.edges.coeff c.1 = 0 ∧ c.2 ≠ 0

/-- An entry removes an edge. -/
def Removes (s : IncrementalStrongComponents V) (c : (V × V) × Int) : Prop :=
  s.directed.edges.coeff c.1 ≠ 0 ∧ c.2 = 0

instance (c : (V × V) × Int) : Decidable (s.Inserts c) :=
  inferInstanceAs (Decidable (_ ∧ _))

instance (c : (V × V) × Int) : Decidable (s.Removes c) :=
  inferInstanceAs (Decidable (_ ∧ _))

theorem stageEdge_eq (changes : DirectedChanges V) (a b : V) (w : Int) :
    s.stageEdge changes ((a, b), w) = if s.Inserts ((a, b), w) then
        { changes with touched := (changes.touched.insert a).insert b
                       added := changes.added.link a b
                       addedReverse := changes.addedReverse.link b a }
      else if s.Removes ((a, b), w) then
        { changes with touched := (changes.touched.insert a).insert b
                       removed := changes.removed.link a b
                       removedReverse := changes.removedReverse.link b a }
      else changes := by
  unfold stageEdge Inserts Removes
  dsimp only
  rw [ZSet.weight_isSome_eq]
  by_cases hpresent : s.directed.edges.coeff (a, b) = 0 <;> by_cases hw : w = 0 <;>
    simp [hpresent, hw]

theorem not_inserts_of_removes {c : (V × V) × Int} (h : s.Removes c) : ¬ s.Inserts c :=
  fun hinserts => h.1 hinserts.1

theorem touched_stageEdge (changes : DirectedChanges V) (c : (V × V) × Int) (v : V) :
    v ∈ (s.stageEdge changes c).touched ↔
      v ∈ changes.touched ∨ (s.Inserts c ∨ s.Removes c) ∧ (c.1.1 = v ∨ c.1.2 = v) := by
  obtain ⟨⟨a, b⟩, w⟩ := c
  rw [stageEdge_eq]
  split_ifs with hinserts hremoves
  · simp only [BTreeSet.mem_insert_iff, hinserts, true_or, true_and]
    tauto
  · simp only [BTreeSet.mem_insert_iff, hremoves, or_true, true_and]
    tauto
  · simp [hinserts, hremoves]

theorem added_stageEdge (changes : DirectedChanges V) (c : (V × V) × Int) (x y : V) :
    ((s.stageEdge changes c).added.Has x y ↔ changes.added.Has x y ∨ s.Inserts c ∧ c.1 = (x, y)) ∧
    ((s.stageEdge changes c).addedReverse.Has y x ↔
      changes.addedReverse.Has y x ∨ s.Inserts c ∧ c.1 = (x, y)) := by
  obtain ⟨⟨a, b⟩, w⟩ := c
  rw [stageEdge_eq]
  split_ifs with hinserts hremoves
  · simp [hinserts, has_link, and_comm]
  · simp [hinserts]
  · simp [hinserts]

theorem removed_stageEdge (changes : DirectedChanges V) (c : (V × V) × Int) (x y : V) :
    ((s.stageEdge changes c).removed.Has x y ↔
      changes.removed.Has x y ∨ s.Removes c ∧ c.1 = (x, y)) ∧
    ((s.stageEdge changes c).removedReverse.Has y x ↔
      changes.removedReverse.Has y x ∨ s.Removes c ∧ c.1 = (x, y)) := by
  obtain ⟨⟨a, b⟩, w⟩ := c
  rw [stageEdge_eq]
  split_ifs with hinserts hremoves
  · have hkeeps : ¬ s.Removes ((a, b), w) := fun hremoves =>
      not_inserts_of_removes hremoves hinserts
    simp [hkeeps]
  · simp [hremoves, has_link, and_comm]
  · simp [hremoves]

/-! ## The staged tick -/

/-- The entries with an effect on an edge that no unchanged weight has. -/
theorem exists_entry_iff {P : Int → Int → Prop} (hchange : ∀ w, ¬ P w w) {x y : V} :
    (∃ c ∈ (s.directed.edges.prepareIntegration edgeDelta).toList,
      P (s.directed.edges.coeff c.1) c.2 ∧ c.1 = (x, y)) ↔
      P (s.directed.edges.coeff (x, y)) (s.nextEdge edgeDelta (x, y)) := by
  constructor
  · rintro ⟨⟨e, w⟩, hc, heffect, rfl⟩
    have hnext := (ZSet.lookup_weights (ExtTreeMap.mem_toList_iff_getElem?_eq_some.mp hc)).1
    exact (show w = s.nextEdge edgeDelta (x, y) from hnext) ▸ heffect
  · intro heffect
    refine ⟨_, ExtTreeMap.mem_toList_iff_getElem?_eq_some.mpr (ZSet.weights_of_ne fun heq => ?_),
      heffect, rfl⟩
    rw [show s.nextEdge edgeDelta (x, y) = _ from heq] at heffect
    exact hchange _ heffect

/-- The entries that insert an edge. -/
theorem exists_inserts_iff {x y : V} :
    (∃ c ∈ (s.directed.edges.prepareIntegration edgeDelta).toList, s.Inserts c ∧ c.1 = (x, y)) ↔
      s.directed.edges.coeff (x, y) = 0 ∧ s.nextEdge edgeDelta (x, y) ≠ 0 :=
  exists_entry_iff (P := fun old new => old = 0 ∧ new ≠ 0) fun _ h => h.2 h.1

/-- The entries that remove an edge. -/
theorem exists_removes_iff {x y : V} :
    (∃ c ∈ (s.directed.edges.prepareIntegration edgeDelta).toList, s.Removes c ∧ c.1 = (x, y)) ↔
      s.directed.edges.coeff (x, y) ≠ 0 ∧ s.nextEdge edgeDelta (x, y) = 0 :=
  exists_entry_iff (P := fun old new => old ≠ 0 ∧ new = 0) fun _ h => h.1 h.2

theorem has_added (x y : V) : ((s.changesOf vertexDelta edgeDelta).added.Has x y ↔
      s.directed.edges.coeff (x, y) = 0 ∧ s.nextEdge edgeDelta (x, y) ≠ 0) ∧
    ((s.changesOf vertexDelta edgeDelta).addedReverse.Has y x ↔
      s.directed.edges.coeff (x, y) = 0 ∧ s.nextEdge edgeDelta (x, y) ≠ 0) := by
  rw [← exists_inserts_iff]
  constructor
  · refine (holds_foldl (fun changes : DirectedChanges V => changes.added.Has x y)
      (fun changes c => (added_stageEdge changes c x y).1) _ _).trans ?_
    exact or_iff_right not_has_empty
  · refine (holds_foldl (fun changes : DirectedChanges V => changes.addedReverse.Has y x)
      (fun changes c => (added_stageEdge changes c x y).2) _ _).trans ?_
    exact or_iff_right not_has_empty

theorem has_removed (x y : V) : ((s.changesOf vertexDelta edgeDelta).removed.Has x y ↔
      s.directed.edges.coeff (x, y) ≠ 0 ∧ s.nextEdge edgeDelta (x, y) = 0) ∧
    ((s.changesOf vertexDelta edgeDelta).removedReverse.Has y x ↔
      s.directed.edges.coeff (x, y) ≠ 0 ∧ s.nextEdge edgeDelta (x, y) = 0) := by
  rw [← exists_removes_iff]
  constructor
  · refine (holds_foldl (fun changes : DirectedChanges V => changes.removed.Has x y)
      (fun changes c => (removed_stageEdge changes c x y).1) _ _).trans ?_
    exact or_iff_right not_has_empty
  · refine (holds_foldl (fun changes : DirectedChanges V => changes.removedReverse.Has y x)
      (fun changes c => (removed_stageEdge changes c x y).2) _ _).trans ?_
    exact or_iff_right not_has_empty

theorem mem_touchVertices {v : V} (hv : vertexDelta.coeff v ≠ 0) :
    v ∈ touchVertices vertexDelta := by
  unfold touchVertices
  rw [BTreeSet.mem_foldl_insert Prod.fst]
  obtain ⟨w, hw⟩ := Option.isSome_iff_exists.mp (ZSet.weight_isSome.mpr hv)
  exact .inr ⟨(v, w), ZSet.mem_iter.mpr hw, rfl⟩

theorem mem_touched (v : V) :
    v ∈ (s.changesOf vertexDelta edgeDelta).touched ↔ v ∈ touchVertices vertexDelta ∨
      ∃ c ∈ (s.directed.edges.prepareIntegration edgeDelta).toList,
        (s.Inserts c ∨ s.Removes c) ∧ (c.1.1 = v ∨ c.1.2 = v) :=
  holds_foldl (fun changes : DirectedChanges V => v ∈ changes.touched)
    (fun changes c => touched_stageEdge changes c v) _ _

/-- The ends of an edge whose presence changes are touched. -/
theorem touched_of_edge {a b : V}
    (hchange : ¬ (s.directed.edges.coeff (a, b) ≠ 0 ↔ s.nextEdge edgeDelta (a, b) ≠ 0)) :
    a ∈ (s.changesOf vertexDelta edgeDelta).touched ∧
      b ∈ (s.changesOf vertexDelta edgeDelta).touched := by
  obtain ⟨c, hc, hstages, heq⟩ : ∃ c ∈ (s.directed.edges.prepareIntegration edgeDelta).toList,
      (s.Inserts c ∨ s.Removes c) ∧ c.1 = (a, b) := by
    by_cases hold : s.directed.edges.coeff (a, b) = 0
    · have hnew : s.nextEdge edgeDelta (a, b) ≠ 0 := fun hzero => hchange (by simp [hold, hzero])
      obtain ⟨c, hc, hinserts, heq⟩ := exists_inserts_iff.mpr ⟨hold, hnew⟩
      exact ⟨c, hc, .inl hinserts, heq⟩
    · have hnew : s.nextEdge edgeDelta (a, b) = 0 := by
        by_contra hlive
        exact hchange (iff_of_true hold hlive)
      obtain ⟨c, hc, hremoves, heq⟩ := exists_removes_iff.mpr ⟨hold, hnew⟩
      exact ⟨c, hc, .inr hremoves, heq⟩
  rw [mem_touched, mem_touched]
  exact ⟨.inr ⟨c, hc, hstages, .inl (by rw [heq])⟩, .inr ⟨c, hc, hstages, .inr (by rw [heq])⟩⟩

theorem mem_prospective_iff (base added removed : Adjacency V) (a b : V) :
    b ∈ prospective base added removed a ↔ (base.Has a b ∨ added.Has a b) ∧ ¬ removed.Has a b := by
  rw [prospective, List.mem_filter, List.mem_append, ExtTreeSet.mem_toList, ExtTreeSet.mem_toList,
    Bool.not_eq_true', ← Bool.not_eq_true, ExtTreeSet.contains_iff_mem]
  rfl

/-- The successors after a tick. -/
def tickForward (s : IncrementalStrongComponents V) (vertexDelta : ZSet V)
    (edgeDelta : ZSet (V × V)) : V → List V :=
  prospective s.directed.outgoing (s.changesOf vertexDelta edgeDelta).added
    (s.changesOf vertexDelta edgeDelta).removed

/-- The predecessors after a tick. -/
def tickBackward (s : IncrementalStrongComponents V) (vertexDelta : ZSet V)
    (edgeDelta : ZSet (V × V)) : V → List V :=
  prospective s.directed.incoming (s.changesOf vertexDelta edgeDelta).addedReverse
    (s.changesOf vertexDelta edgeDelta).removedReverse

/-- The region of a tick. -/
def tickCandidates (s : IncrementalStrongComponents V) (vertexDelta : ZSet V)
    (edgeDelta : ZSet (V × V)) : BTreeSet V :=
  s.weak.affected (s.changesOf vertexDelta edgeDelta).touched
    (s.weak.affectedRoots (s.changesOf vertexDelta edgeDelta).touched)

/-! ## The region -/

theorem vertex_outside {v : V} (hv : v ∉ s.tickCandidates vertexDelta edgeDelta) :
    vertexDelta.coeff v = 0 := by
  by_contra hchange
  refine hv (mem_affected.mpr (.inl ((mem_touched v).mpr (.inl ?_))))
  exact mem_touchVertices hchange

theorem edge_outside {a b : V} (hout : a ∉ s.tickCandidates vertexDelta edgeDelta) :
    s.directed.edges.coeff (a, b) ≠ 0 ↔ s.nextEdge edgeDelta (a, b) ≠ 0 := by
  by_contra hchange
  exact hout (mem_affected.mpr (.inl (touched_of_edge hchange).1))

namespace Sound

variable (h : Sound s)

include h

theorem mem_leadsTo (a b : V) : b ∈ s.leadsTo a ↔ s.directed.edges.coeff (a, b) ≠ 0 := by
  rw [leadsTo, ExtTreeSet.mem_toList]
  exact h.outgoing_iff a b

theorem mem_tickForward (a b : V) :
    b ∈ s.tickForward vertexDelta edgeDelta a ↔ s.nextEdge edgeDelta (a, b) ≠ 0 := by
  rw [tickForward, mem_prospective_iff, h.outgoing_iff, (has_added a b).1, (has_removed a b).1]
  tauto

theorem mem_tickBackward (a b : V) :
    a ∈ s.tickBackward vertexDelta edgeDelta b ↔ s.nextEdge edgeDelta (a, b) ≠ 0 := by
  rw [tickBackward, mem_prospective_iff, h.incoming_iff, (has_added a b).2, (has_removed a b).2]
  tauto

/-- A directed edge is an edge of the undirected projection. -/
theorem weak_of_edge {a b : V} (hab : s.directed.edges.coeff (a, b) ≠ 0) :
    b ∈ s.weak.adjacentTo a := by
  rw [h.weak.mem_adjacentTo, h.projected, pairDelta]
  have hone := h.nonneg (a, b)
  have htwo := h.nonneg (b, a)
  split_ifs
  · exact hab
  · omega

theorem same_side {a b : V}
    (hab : s.directed.edges.coeff (a, b) ≠ 0 ∨ s.nextEdge edgeDelta (a, b) ≠ 0) :
    a ∈ s.tickCandidates vertexDelta edgeDelta ↔ b ∈ s.tickCandidates vertexDelta edgeDelta := by
  by_cases hold : s.directed.edges.coeff (a, b) = 0
  · have hnew := hab.resolve_left (not_not.mpr hold)
    have hends : a ∈ (s.changesOf vertexDelta edgeDelta).touched ∧
        b ∈ (s.changesOf vertexDelta edgeDelta).touched :=
      touched_of_edge fun hiff => hiff.mpr hnew hold
    exact iff_of_true (mem_affected.mpr (.inl hends.1))
      (mem_affected.mpr (.inl hends.2))
  · have hweak := h.weak_of_edge hold
    obtain ⟨r, hr⟩ := h.weak.labelled a (h.weak.live_of_adjacent hweak)
    have hlabel := h.weak.label_of_connected hr (Relation.ReflTransGen.single hweak)
    exact (h.weak.mem_affected_iff _ hr).trans (h.weak.mem_affected_iff _ hlabel).symm

theorem strong_outside {v : V} (hv : v ∉ s.tickCandidates vertexDelta edgeDelta) (u : V) :
    Strong (s.tickForward vertexDelta edgeDelta) v u ↔ Strong s.leadsTo v u := by
  constructor
  · refine Strong.of_outside (fun a b ha hab => ?_) (fun a b ha hab => ?_) hv
    · rw [h.mem_tickForward] at hab
      rwa [← h.same_side (.inr hab)]
    · rw [h.mem_tickForward] at hab
      rwa [h.mem_leadsTo, edge_outside ha]
  · refine Strong.of_outside (fun a b ha hab => ?_) (fun a b ha hab => ?_) hv
    · rw [h.mem_leadsTo] at hab
      rwa [← h.same_side (.inl hab)]
    · rw [h.mem_leadsTo] at hab
      rwa [h.mem_tickForward, ← edge_outside ha]

end Sound

end IncrementalStrongComponents

end FrankenGraph.Zset

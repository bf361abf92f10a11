import FrankenGraph.Zset.Components
import FrankenGraph.Library.KeySets

/-!
# What a component tick stages

The relations that a tick stages against the adjacency before and after it, and the region it takes
apart: the old components of the touched vertices. No edge leaves the region, before or after the
tick.

Results:
* `mem_nextNeighbors`: the staged adjacency is the adjacency after the tick
* `Region.outside`: outside the region, components do not change
* `Region.closed`: inside the region, no edge leaves it
-/

namespace FrankenGraph.Zset

open ZSet BTreeSet Adjacency List

open Std (ExtTreeMap ExtTreeSet)

variable {V : Type} [LinearOrder V]

namespace IncrementalComponents

/-- The neighbours of a vertex. -/
def adjacentTo (s : IncrementalComponents V) (v : V) : List V :=
  (s.neighbors.row v).toList

/-- What every state that committed ticks lead to satisfies. -/
structure Sound (s : IncrementalComponents V) : Prop where
  vertex_cases : ∀ v, s.vertices.coeff v = 0 ∨ s.vertices.coeff v = 1
  nonneg : ∀ e, 0 ≤ s.edges.coeff e
  ordered : ∀ e, s.edges.coeff e ≠ 0 → e.1 ≤ e.2
  endpoints : ∀ e, s.edges.coeff e ≠ 0 → s.vertices.coeff e.1 ≠ 0 ∧ s.vertices.coeff e.2 ≠ 0
  neighbors_iff : ∀ a b, s.neighbors.Has a b ↔ s.edges.coeff (canonical a b) ≠ 0
  labels_iff : ∀ v r, s.labels[v]? = some r ↔ s.vertices.coeff v ≠ 0 ∧ Leader s.adjacentTo v r
  labelled : ∀ v, s.vertices.coeff v ≠ 0 → ∃ r, s.labels[v]? = some r
  members_iff : ∀ r v, s.members.Has r v ↔ s.labels[v]? = some r
  rows : ∀ (r : V) (row : BTreeSet V), s.members[r]? = some row → r ∈ row

/-- The multiplicity of a pair after a tick. -/
def nextEdge (s : IncrementalComponents V) (edgeDelta : ZSet (V × V)) (e : V × V) : Int :=
  s.edges.coeff e + (normalized edgeDelta).coeff e

/-- The weight of a vertex after a tick. -/
def nextVertex (s : IncrementalComponents V) (vertexDelta : ZSet V) (v : V) : Int :=
  s.vertices.coeff v + vertexDelta.coeff v

variable {s : IncrementalComponents V} {vertexDelta : ZSet V} {edgeDelta : ZSet (V × V)}

variable {v : V}

theorem present_iff : present s.vertices (s.vertices.prepareIntegration vertexDelta) v = true ↔
      s.nextVertex vertexDelta v ≠ 0 := by
  unfold present nextVertex
  rw [lookup_prepareIntegration]
  cases hdelta : vertexDelta.weight v with
  | none =>
    rw [weight_eq_none.mp hdelta, add_zero, Option.map_none, Option.none_or]
    cases hold : s.vertices.weight v with
    | none => simp [weight_eq_none.mp hold]
    | some w => simp [(weight_eq_some.mp hold).1, (weight_eq_some.mp hold).2]
  | some w => simp [(weight_eq_some.mp hdelta).2]

/-! ## The loop over the edges -/

/-- An entry changes the presence of its pair. -/
def Changes (s : IncrementalComponents V) (c : (V × V) × Int) : Prop :=
  ¬ (c.2 ≠ 0 ↔ s.edges.coeff c.1 ≠ 0)

theorem has_linkBoth {relation : Adjacency V} {a b x y : V} :
    (if a ≠ b then (relation.link a b).link b a else relation.link a b).Has x y ↔
      relation.Has x y ∨ (a, b) = (x, y) ∨ (a, b) = (y, x) := by
  simp only [Prod.mk.injEq]
  split_ifs with hab
  · rw [has_link, has_link, or_assoc]
    tauto
  · rw [has_link]
    push Not at hab
    subst hab
    tauto

theorem stageEdge_spec (staged : StagedEdges V) (c : (V × V) × Int) :
    (∀ v, v ∈ (s.stageEdge staged c).touched ↔
      v ∈ staged.touched ∨ s.Changes c ∧ (c.1.1 = v ∨ c.1.2 = v)) ∧
    (∀ a b, (s.stageEdge staged c).inserted.Has a b ↔ staged.inserted.Has a b ∨
      (s.edges.coeff c.1 = 0 ∧ c.2 ≠ 0) ∧ (c.1 = (a, b) ∨ c.1 = (b, a))) ∧
    ∀ a b, (s.stageEdge staged c).removed.Has a b ↔ staged.removed.Has a b ∨
      (s.edges.coeff c.1 ≠ 0 ∧ c.2 = 0) ∧ (c.1 = (a, b) ∨ c.1 = (b, a)) := by
  obtain ⟨⟨x, y⟩, w⟩ := c
  unfold stageEdge Changes
  dsimp only
  rw [weight_isSome_eq]
  by_cases hold : s.edges.coeff (x, y) = 0 <;> by_cases hnew : w = 0
  · simp [hold, hnew]
  · simp only [hold, hnew, ne_eq, not_false_eq_true, not_true_eq_false, decide_true, decide_false,
      Bool.true_eq_false, if_false, if_true, BTreeSet.mem_insert_iff, has_linkBoth]
    simp only [iff_false, not_true_eq_false, not_false_eq_true, true_and, false_and, or_false,
      and_true, and_false]
    refine ⟨fun v => ?_, fun a b => trivial, fun a b => trivial⟩
    tauto
  · simp only [hold, hnew, ne_eq, not_false_eq_true, not_true_eq_false, decide_true, decide_false,
      Bool.false_eq_true, if_false, BTreeSet.mem_insert_iff, has_linkBoth]
    simp only [iff_true, not_false_eq_true, true_and, false_and, or_false, and_true, and_false]
    refine ⟨fun v => ?_, fun a b => trivial, fun a b => trivial⟩
    tauto
  · simp [hold, hnew]

theorem foldl_stageEdge_spec (l : List ((V × V) × Int)) (staged : StagedEdges V) :
    (∀ v, v ∈ (l.foldl s.stageEdge staged).touched ↔
      v ∈ staged.touched ∨ ∃ c ∈ l, s.Changes c ∧ (c.1.1 = v ∨ c.1.2 = v)) ∧
    (∀ a b, (l.foldl s.stageEdge staged).inserted.Has a b ↔ staged.inserted.Has a b ∨
      ∃ c ∈ l, (s.edges.coeff c.1 = 0 ∧ c.2 ≠ 0) ∧ (c.1 = (a, b) ∨ c.1 = (b, a))) ∧
    ∀ a b, (l.foldl s.stageEdge staged).removed.Has a b ↔ staged.removed.Has a b ∨
      ∃ c ∈ l, (s.edges.coeff c.1 ≠ 0 ∧ c.2 = 0) ∧ (c.1 = (a, b) ∨ c.1 = (b, a)) := by
  refine ⟨fun v => ?_, fun a b => ?_, fun a b => ?_⟩
  · exact holds_foldl (fun staged : StagedEdges V => v ∈ staged.touched)
      (fun staged c => (s.stageEdge_spec staged c).1 v) l staged
  · exact holds_foldl (fun staged : StagedEdges V => staged.inserted.Has a b)
      (fun staged c => (s.stageEdge_spec staged c).2.1 a b) l staged
  · exact holds_foldl (fun staged : StagedEdges V => staged.removed.Has a b)
      (fun staged c => (s.stageEdge_spec staged c).2.2 a b) l staged

/-! ## The staged tick -/

/-- What the loop over the edges has staged. -/
def stagedEdges (s : IncrementalComponents V) (touched : BTreeSet V) (edgeDelta : ZSet (V × V)) :
    StagedEdges V :=
  (s.edges.prepareIntegration (normalized edgeDelta)).toList.foldl s.stageEdge
    { touched, inserted := ∅, removed := ∅ }

/-- The entries with an effect on a pair that no unchanged weight has. -/
theorem exists_weights_iff {P : Int → Int → Prop} (hchange : ∀ w, ¬ P w w) (a b : V) :
    (∃ c ∈ (s.edges.prepareIntegration (normalized edgeDelta)).toList, P (s.edges.coeff c.1) c.2 ∧
      (c.1 = (a, b) ∨ c.1 = (b, a))) ↔
      P (s.edges.coeff (canonical a b)) (s.nextEdge edgeDelta (canonical a b)) := by
  constructor
  · rintro ⟨c, hc, heffect, hpair⟩
    obtain ⟨h₁, h₂⟩ := weights_pair hc hpair
    rwa [h₁, h₂] at heffect
  · intro heffect
    have hne : s.nextEdge edgeDelta (canonical a b) ≠ s.edges.coeff (canonical a b) := by
      intro heq
      rw [heq] at heffect
      exact hchange _ heffect
    exact ⟨_, mem_weights hne, heffect, canonical_pair a b⟩

theorem has_inserted (touched : BTreeSet V) (a b : V) :
    (s.stagedEdges touched edgeDelta).inserted.Has a b ↔
      s.edges.coeff (canonical a b) = 0 ∧ s.nextEdge edgeDelta (canonical a b) ≠ 0 := by
  refine ((s.foldl_stageEdge_spec _ _).2.1 a b).trans ((or_iff_right not_has_empty).trans ?_)
  exact exists_weights_iff (P := fun old new => old = 0 ∧ new ≠ 0) (fun _ h => h.2 h.1) a b

theorem has_removed (touched : BTreeSet V) (a b : V) :
    (s.stagedEdges touched edgeDelta).removed.Has a b ↔
      s.edges.coeff (canonical a b) ≠ 0 ∧ s.nextEdge edgeDelta (canonical a b) = 0 := by
  refine ((s.foldl_stageEdge_spec _ _).2.2 a b).trans ((or_iff_right not_has_empty).trans ?_)
  exact exists_weights_iff (P := fun old new => old ≠ 0 ∧ new = 0) (fun _ h => h.1 h.2) a b

theorem mem_nextNeighbors_iff (inserted removed : Adjacency V) (a b : V) :
    b ∈ s.nextNeighbors inserted removed a ↔
      (s.neighbors.Has a b ∨ inserted.Has a b) ∧ ¬ removed.Has a b := by
  rw [nextNeighbors, mem_filter, mem_append, ExtTreeSet.mem_toList, ExtTreeSet.mem_toList,
    Bool.not_eq_true', ← Bool.not_eq_true, ExtTreeSet.contains_iff_mem]
  rfl

theorem mem_nextNeighbors (h : Sound s) (touched : BTreeSet V) (a b : V) :
    b ∈ s.nextNeighbors (s.stagedEdges touched edgeDelta).inserted
        (s.stagedEdges touched edgeDelta).removed a ↔
      s.nextEdge edgeDelta (canonical a b) ≠ 0 := by
  rw [mem_nextNeighbors_iff, h.neighbors_iff, has_inserted, has_removed]
  tauto

variable {touched : BTreeSet V}

/-- A vertex that meets an edge whose presence changes is touched. -/
theorem touched_of_edge {a b : V}
    (hchange : ¬ (s.edges.coeff (canonical a b) ≠ 0 ↔ s.nextEdge edgeDelta (canonical a b) ≠ 0)) :
    a ∈ (s.stagedEdges touched edgeDelta).touched := by
  have hne : s.nextEdge edgeDelta (canonical a b) ≠ s.edges.coeff (canonical a b) := by
    intro heq
    rw [heq] at hchange
    exact hchange Iff.rfl
  refine ((s.foldl_stageEdge_spec _ _).1 a).mpr (.inr ⟨_, mem_weights hne, ?_, ?_⟩)
  · exact fun hiff => hchange hiff.symm
  · rcases canonical_pair a b with hpair | hpair <;> rw [hpair]
    · exact .inl rfl
    · exact .inr rfl

theorem touched_of_touched (hv : v ∈ touched) : v ∈ (s.stagedEdges touched edgeDelta).touched :=
  ((s.foldl_stageEdge_spec _ _).1 v).mpr (.inl hv)

theorem mem_foldl_touchVertex (l : List (V × Int)) (touched : BTreeSet V) (v : V) :
    v ∈ l.foldl s.touchVertex touched ↔
      v ∈ touched ∨ ∃ c ∈ l, c.1 = v ∧ ¬ (s.vertices.coeff c.1 ≠ 0 ↔ c.2 ≠ 0) := by
  refine holds_foldl (fun touched : BTreeSet V => v ∈ touched) (fun touched c => ?_) l touched
  unfold touchVertex
  rw [weight_isSome_eq]
  by_cases hold : s.vertices.coeff c.1 = 0 <;> by_cases hnew : c.2 = 0 <;>
    simp [hold, hnew, or_comm]

theorem touched_of_vertex (hchange : ¬ (s.vertices.coeff v ≠ 0 ↔ s.nextVertex vertexDelta v ≠ 0)) :
    v ∈ (s.vertices.prepareIntegration vertexDelta).toList.foldl s.touchVertex ∅ := by
  have hne : s.nextVertex vertexDelta v ≠ s.vertices.coeff v := by
    intro heq
    rw [heq] at hchange
    exact hchange Iff.rfl
  refine (s.mem_foldl_touchVertex _ _ v).mpr (.inr ⟨(v, s.nextVertex vertexDelta v), ?_, rfl, hchange⟩)
  exact ExtTreeMap.mem_toList_iff_getElem?_eq_some.mpr (weights_of_ne hne)

/-! ## The region -/

theorem mem_affectedRoots {r : V} :
    r ∈ s.affectedRoots touched ↔ ∃ v ∈ touched, s.labels[v]? = some r := by
  refine (mem_foldl_lookup s.labels _ _ r).trans ?_
  simp [ExtTreeSet.mem_toList]

theorem mem_affected {roots : BTreeSet V} :
    v ∈ s.affected touched roots ↔ v ∈ touched ∨ ∃ r ∈ roots, s.members.Has r v := by
  have hstep : ∀ (candidates : BTreeSet V) (root : V), v ∈ (s.members.row root).toList.foldl
      (fun candidates vertex => candidates.insert vertex) candidates ↔
        v ∈ candidates ∨ s.members.Has root v := fun candidates root => by
    rw [mem_foldl_insert (fun v : V => v)]
    simp only [ExtTreeSet.mem_toList, exists_eq_right]
    rfl
  refine (holds_foldl (fun candidates : BTreeSet V => v ∈ candidates) hstep _ _).trans ?_
  simp [ExtTreeSet.mem_toList]

/-- A set of candidates that holds every touched vertex and whole old components, named by their
roots. -/
structure Region (s : IncrementalComponents V) (vertexDelta : ZSet V) (edgeDelta : ZSet (V × V))
    (roots candidates : BTreeSet V) : Prop where
  vertex : ∀ v, v ∉ candidates → (s.vertices.coeff v ≠ 0 ↔ s.nextVertex vertexDelta v ≠ 0)
  edge : ∀ a b, a ∉ candidates →
    (s.edges.coeff (canonical a b) ≠ 0 ↔ s.nextEdge edgeDelta (canonical a b) ≠ 0)
  labelled : ∀ (v r : V), s.labels[v]? = some r → (v ∈ candidates ↔ r ∈ roots)
  roots_labelled : ∀ r ∈ roots, ∃ v : V, s.labels[v]? = some r

/-- A labelled vertex is affected when its component is. -/
theorem Sound.mem_affected_iff (h : Sound s) (touched : BTreeSet V) {r : V}
    (hlabel : s.labels[v]? = some r) :
    v ∈ s.affected touched (s.affectedRoots touched) ↔ r ∈ s.affectedRoots touched := by
  rw [mem_affected]
  constructor
  · rintro (htouched | ⟨r', hr', hmember⟩)
    · exact mem_affectedRoots.mpr ⟨v, htouched, hlabel⟩
    · rw [h.members_iff, hlabel, Option.some.injEq] at hmember
      exact hmember ▸ hr'
  · intro hr
    exact .inr ⟨r, hr, (h.members_iff r v).mpr hlabel⟩

/-- The touched vertices and the members of their old components are such a set. -/
theorem Sound.region (h : Sound s) : Region s vertexDelta edgeDelta
      (s.affectedRoots (s.stagedEdges
        ((s.vertices.prepareIntegration vertexDelta).toList.foldl s.touchVertex ∅) edgeDelta).touched)
      (s.affected (s.stagedEdges
        ((s.vertices.prepareIntegration vertexDelta).toList.foldl s.touchVertex ∅) edgeDelta).touched
        (s.affectedRoots (s.stagedEdges ((s.vertices.prepareIntegration vertexDelta).toList.foldl
          s.touchVertex ∅) edgeDelta).touched)) := by
  refine ⟨fun v hv => ?_, fun a b ha => ?_, fun v r hlabel => ?_, fun r hr => ?_⟩
  · by_contra hchange
    exact hv (mem_affected.mpr (.inl (touched_of_touched (touched_of_vertex hchange))))
  · by_contra hchange
    exact ha (mem_affected.mpr (.inl (touched_of_edge hchange)))
  · exact h.mem_affected_iff _ hlabel
  · obtain ⟨v, -, hv⟩ := mem_affectedRoots.mp hr
    exact ⟨v, hv⟩

namespace Sound

variable (h : Sound s)

include h

theorem mem_adjacentTo (a b : V) : b ∈ s.adjacentTo a ↔ s.edges.coeff (canonical a b) ≠ 0 := by
  rw [adjacentTo, ExtTreeSet.mem_toList]
  exact h.neighbors_iff a b

theorem adjacentTo_symm (a b : V) (hab : b ∈ s.adjacentTo a) : a ∈ s.adjacentTo b := by
  rw [h.mem_adjacentTo] at hab ⊢
  rwa [canonical_comm]

/-- The pairs that have a multiplicity after a tick are ordered. -/
theorem canonical_of_nextEdge {e : V × V} (he : s.nextEdge edgeDelta e ≠ 0) :
    canonical e.1 e.2 = e := by
  refine if_pos ?_
  by_cases hold : s.edges.coeff e = 0
  · rw [nextEdge, hold, zero_add] at he
    exact le_of_coeff_normalized he
  · exact h.ordered e hold

theorem live_of_adjacent {a b : V} (hab : b ∈ s.adjacentTo a) : s.vertices.coeff a ≠ 0 := by
  rw [h.mem_adjacentTo] at hab
  obtain ⟨h₁, h₂⟩ := h.endpoints _ hab
  rcases canonical_pair a b with hpair | hpair <;> rw [hpair] at h₁ h₂
  · exact h₁
  · exact h₂

theorem label_of_connected {v u r : V} (hlabel : s.labels[v]? = some r)
    (hconnected : Connected s.adjacentTo v u) : s.labels[u]? = some r := by
  obtain ⟨hlive, hr, hleast⟩ := (h.labels_iff v r).mp hlabel
  have hback := hconnected.symm h.adjacentTo_symm
  refine (h.labels_iff u r).mpr ⟨?_, hback.trans hr, fun w hw => hleast w (hconnected.trans hw)⟩
  cases Relation.ReflTransGen.cases_head hback with
  | inl heq => exact heq ▸ hlive
  | inr hstep =>
    obtain ⟨w, hw, -⟩ := hstep
    exact h.live_of_adjacent hw

end Sound

namespace Region

variable {roots candidates : BTreeSet V} (hregion : Region s vertexDelta edgeDelta roots candidates)
  (h : Sound s)

include hregion h

variable {v : V}

/-- No old edge leaves the region. -/
theorem outside_step {u : V} (hv : v ∉ candidates) (hvu : u ∈ s.adjacentTo v) : u ∉ candidates := by
  obtain ⟨r, hr⟩ := h.labelled v (h.live_of_adjacent hvu)
  have hu := h.label_of_connected hr (Relation.ReflTransGen.single hvu)
  rwa [hregion.labelled u r hu, ← hregion.labelled v r hr]

variable {next : V → List V}
  (hnext : ∀ a b, b ∈ next a ↔ s.nextEdge edgeDelta (canonical a b) ≠ 0)

include hnext

omit h in
theorem next_iff {u : V}
    (hv : v ∉ candidates) : u ∈ next v ↔ s.edges.coeff (canonical v u) ≠ 0 := by
  rw [hnext, hregion.edge v u hv]

theorem outside (hv : v ∉ candidates) (u : V) :
    Connected next v u ↔ Connected s.adjacentTo v u := by
  have hstep : ∀ a b, a ∉ candidates → (b ∈ next a ↔ b ∈ s.adjacentTo a) := by
    intro a b ha
    rw [h.mem_adjacentTo, hregion.next_iff hnext ha]
  constructor
  · intro hconnected
    exact (hconnected.of_outside
      (fun a b ha hab => hregion.outside_step h ha ((hstep a b ha).mp hab))
      (fun a b ha => (hstep a b ha).mp) hv).1
  · intro hconnected
    exact (hconnected.of_outside (fun a b ha => hregion.outside_step h ha)
      (fun a b ha => (hstep a b ha).mpr) hv).1

/-- No edge of the tick leaves the region. -/
theorem closed {a b : V} (ha : a ∈ candidates) (hab : b ∈ next a) : b ∈ candidates := by
  by_contra hb
  have hba : a ∈ next b := by
    rw [hnext] at hab ⊢
    rwa [canonical_comm]
  rw [hregion.next_iff hnext hb, ← h.mem_adjacentTo] at hba
  exact hregion.outside_step h hb hba ha

end Region

end IncrementalComponents

end FrankenGraph.Zset

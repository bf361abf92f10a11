import FrankenGraph.Zset.CorePeeling
import FrankenGraph.Zset.ComponentRuns

/-!
# Runs of the incremental core numbers

The region of an accepted tick is complete, so that peeling it gives the core numbers of its
vertices; outside the region no core number changes.

Results:
* `complete`: the region of an accepted tick is complete
* `Sound.commit`: a commit keeps the invariant
* `core_numbers_exact`: core numbers, deltas and refusals along every run
-/

namespace FrankenGraph.Zset

open IncrementalComponents ZSet IncrementalCoreNumbers Option

open Std (ExtTreeMap ExtTreeSet)

variable {V : Type} [LinearOrder V]

namespace IncrementalCoreNumbers

/-- Two distinct vertices are joined by an edge. -/
def Joins (s : IncrementalComponents V) (a b : V) : Prop :=
  a ≠ b ∧ s.edges.coeff (canonical a b) ≠ 0

/-- The numbers are the core numbers of the live vertices. -/
structure Sound (s : IncrementalCoreNumbers V) : Prop where
  topology : s.topology.Sound
  numbers_iff : ∀ (v : V) (k : Nat), s.numbers[v]? = some k ↔
    s.topology.vertices.coeff v ≠ 0 ∧ IsCoreNumber (Joins s.topology) v k
  numbered : ∀ v : V, s.topology.vertices.coeff v ≠ 0 → ∃ k, s.numbers[v]? = some k

/-! ## The region of a tick -/

section Tick

variable {s : IncrementalComponents V} {vertexDelta : ZSet V} {edgeDelta : ZSet (V × V)}
  {update : ComponentUpdate V} (h : s.Sound)
  (hprepared : IncrementalComponents.Prepared s vertexDelta edgeDelta update)

include h hprepared

/-- The edges that `peel` sees are those after the tick. -/
theorem joined_iff (a b : V) : Peeling.Joined s update a b ↔ Joins (s.commit update).1 a b := by
  have hold := h.neighbors_iff a b
  have hinserted : update.inserted.Has a b ↔ _ :=
    hprepared.inserted ▸ has_inserted _ a b
  have hremoved : update.removed.Has a b ↔ _ :=
    hprepared.removed ▸ has_removed _ a b
  have hjoined : Peeling.Joined s update a b ↔
      (s.neighbors.Has a b ∨ update.inserted.Has a b) ∧ a ≠ b ∧ ¬ update.removed.Has a b := by
    rw [Peeling.Joined, Peeling.adjacent, Peeling.retained, List.mem_append, ExtTreeSet.mem_toList,
      ExtTreeSet.mem_toList, Bool.and_eq_true, decide_eq_true_eq, Bool.not_eq_true',
      ← Bool.not_eq_true, ExtTreeSet.contains_iff_mem]
    rfl
  rw [hjoined, Joins, coeff_edges_commit hprepared, hold, hinserted, hremoved]
  clear hold hinserted hremoved hjoined
  tauto

variable (hadmissible : s.Admissible vertexDelta edgeDelta)

include hadmissible

/-- The labelled vertices of the update are those of the region that are live after the tick. -/
theorem mem_labels (v : V) :
    v ∈ update.labels ↔ v ∈ update.candidates ∧ (s.commit update).1.vertices.coeff v ≠ 0 := by
  obtain ⟨hlabels, htotal, -, -⟩ := tickPartition_spec h hadmissible
  rw [ExtTreeMap.mem_iff_isSome_getElem?, isSome_iff_exists, hprepared.labels,
    hprepared.candidates, coeff_vertices_commit hprepared,
    ← mem_tickRemaining]
  exact ⟨fun ⟨r, hr⟩ => ((hlabels v r).mp hr).1, htotal v⟩

theorem complete : Peeling.Complete s update := by
  have hneighbors : ∀ a b, b ∈ s.tickNeighbors vertexDelta edgeDelta a ↔ _ :=
    mem_tickNeighbors h
  refine ⟨fun v => ?_, fun a b hab => ?_, fun a b ha hab => ?_⟩
  · refine List.nodup_append.mpr ⟨BTreeSet.nodup_toList _, BTreeSet.nodup_toList _, ?_⟩
    rintro u hu w hw rfl
    have hold := (h.neighbors_iff v u).mp (ExtTreeSet.mem_toList.mp hu)
    have hinserted : update.inserted.Has v u := ExtTreeSet.mem_toList.mp hw
    rw [hprepared.inserted] at hinserted
    exact hold ((has_inserted _ v u).mp hinserted).1
  · rw [joined_iff h hprepared] at hab ⊢
    exact ⟨hab.1.symm, canonical_comm a b ▸ hab.2⟩
  · rw [joined_iff h hprepared] at hab
    rw [mem_labels h hprepared hadmissible] at ha ⊢
    have hab' := hab.2
    rw [coeff_edges_commit hprepared] at hab'
    refine ⟨?_, ?_⟩
    · rw [hprepared.candidates] at ha ⊢
      exact (tickRegion h).closed h hneighbors ha.1
        ((hneighbors a b).mpr hab')
    · rw [coeff_vertices_commit hprepared]
      exact (live_of_nextEdge hadmissible hab').2

omit hadmissible in
/-- Outside the region, vertices and core numbers do not change. -/
theorem outside {v : V} (hv : v ∉ update.candidates) :
    ((s.commit update).1.vertices.coeff v ≠ 0 ↔ s.vertices.coeff v ≠ 0) ∧
      ∀ k, IsCoreNumber (Joins (s.commit update).1) v k ↔ IsCoreNumber (Joins s) v k := by
  have hregion : IncrementalComponents.Region s vertexDelta edgeDelta _ _ :=
    tickRegion h
  rw [← hprepared.candidates] at hregion
  constructor
  · rw [coeff_vertices_commit hprepared]
    exact (hregion.vertex v hv).symm
  · intro k
    have hsame : ∀ a b, a ∉ update.candidates → (Joins s a b ↔ Joins (s.commit update).1 a b) := by
      intro a b ha
      rw [Joins, Joins, coeff_edges_commit hprepared, hregion.edge a b ha]
    refine (isCoreNumber_congr (fun a b ha hab => ?_) hsame hv k).symm
    exact hregion.outside_step h ha ((h.mem_adjacentTo a b).mpr hab.2)

end Tick

/-! ## Commits -/

variable {s : IncrementalCoreNumbers V}

/-- What an accepted tick has staged. -/
structure Prepared (s : IncrementalCoreNumbers V) (vertexDelta : ZSet V) (edgeDelta : ZSet (V × V))
    (update : CoreUpdate V) : Prop where
  admissible : s.topology.Admissible vertexDelta edgeDelta
  topology : IncrementalComponents.Prepared s.topology vertexDelta edgeDelta update.topology
  replacements_iff : ∀ (u : V) (k : Nat), update.replacements[u]? = some k ↔
    u ∈ update.topology.labels ∧ IsCoreNumber (Peeling.Joined s.topology update.topology) u k
  replaced : ∀ u ∈ update.topology.labels, ∃ k, update.replacements[u]? = some k
  delta : update.delta = rowDelta s.numbers update.replacements update.topology.candidates

/-- A tick is accepted with the core numbers of the region, or fails with an error of the topology
or an overflow of a degree. -/
theorem prepare_cases (h : Sound s) (vertexDelta : ZSet V) (edgeDelta : ZSet (V × V)) :
    (∃ update, s.prepare vertexDelta edgeDelta = .ok update ∧
      Prepared s vertexDelta edgeDelta update) ∨
    (∃ error, s.prepare vertexDelta edgeDelta = .error (.topology error) ∧
      s.topology.Violates vertexDelta edgeDelta error) ∨
    s.prepare vertexDelta edgeDelta = .error .degreeOverflow := by
  unfold prepare
  rcases IncrementalComponents.prepare_cases h.topology vertexDelta edgeDelta with
    ⟨update, hok, hadmissible, hprepared⟩ | ⟨error, herror, hviolates⟩
  · rw [hok]
    rcases Peeling.peel_spec (complete h.topology hprepared hadmissible) with
      hoverflow | ⟨numbers, hpeel, hnumbers, htotal⟩
    · refine .inr (.inr ?_)
      change (Peeling.peel s.topology update >>= _) = _
      rw [hoverflow]
      rfl
    · refine .inl ⟨⟨update, numbers, rowDelta s.numbers numbers update.candidates⟩, ?_, hadmissible,
        hprepared, hnumbers, htotal, rfl⟩
      change (Peeling.peel s.topology update >>= _) = _
      rw [hpeel]
      rfl
  · rw [herror]
    exact .inr (.inl ⟨error, rfl, hviolates⟩)

section Committed

variable {vertexDelta : ZSet V} {edgeDelta : ZSet (V × V)} {update : CoreUpdate V} (h : Sound s)
  (hprepared : Prepared s vertexDelta edgeDelta update)

theorem lookup_numbers_commit (v : V) : (s.commit update).1.numbers[v]? =
    (update.replacements[v]?).or (if v ∈ update.topology.candidates then none else s.numbers[v]?) := by
  refine (BTreeMap.lookup_extend _ _ v).trans ?_
  rw [BTreeMap.lookup_foldl_erase]
  simp only [ExtTreeSet.mem_toList]

theorem numbers_inside {v : V} (hv : v ∈ update.topology.candidates) :
    (s.commit update).1.numbers[v]? = update.replacements[v]? := by
  rw [lookup_numbers_commit, if_pos hv, or_none]

include h hprepared

theorem numbers_outside {v : V} (hv : v ∉ update.topology.candidates) :
    (s.commit update).1.numbers[v]? = s.numbers[v]? := by
  have hnone : update.replacements[v]? = none := by
    rw [eq_none_iff_forall_ne_some]
    intro k hk
    have hlabel := ((hprepared.replacements_iff v k).mp hk).1
    exact hv ((mem_labels h.topology hprepared.topology hprepared.admissible v).mp hlabel).1
  rw [lookup_numbers_commit, hnone, if_neg hv, none_or]

theorem Sound.commit : Sound (s.commit update).1 := by
  have hlabels := mem_labels h.topology hprepared.topology hprepared.admissible
  have hjoined : Peeling.Joined s.topology update.topology =
      Joins (s.topology.commit update.topology).1 :=
    funext₂ fun a b => propext (joined_iff h.topology hprepared.topology a b)
  refine ⟨IncrementalComponents.Sound.commit hprepared.topology h.topology hprepared.admissible,
    fun v k => ?_, fun v hv => ?_⟩
  · by_cases hin : v ∈ update.topology.candidates
    · rw [numbers_inside hin, hprepared.replacements_iff, hlabels, hjoined, and_iff_right hin]
      rfl
    · obtain ⟨hlive, hcore⟩ := outside h.topology hprepared.topology hin
      rw [numbers_outside h hprepared hin, h.numbers_iff, ← hlive, ← hcore]
      rfl
  · by_cases hin : v ∈ update.topology.candidates
    · rw [numbers_inside hin]
      exact hprepared.replaced v ((hlabels v).mpr ⟨hin, hv⟩)
    · rw [numbers_outside h hprepared hin]
      exact h.numbered v ((outside h.topology hprepared.topology hin).1.mp hv)

/-- The returned delta is the difference of the rows. -/
theorem coeff_delta (v : V) (k : Nat) : (s.commit update).2.coeff (v, k) =
    rowWeight (s.commit update).1.numbers v k - rowWeight s.numbers v k := by
  change update.delta.coeff (v, k) = _
  rw [hprepared.delta]
  exact coeff_rowDelta_of_outside (fun u hu => numbers_inside hu)
    (fun u hu => numbers_outside h hprepared hu) v k

end Committed

theorem sound_new : Sound (new : IncrementalCoreNumbers V) where
  topology := IncrementalComponents.sound_new
  numbers_iff v k := by
    refine ⟨fun hk => ?_, fun hv => absurd ZSet.coeff_new hv.1⟩
    change (∅ : BTreeMap V Nat)[v]? = some k at hk
    rw [ExtTreeMap.getElem?_empty] at hk
    cases hk
  numbered v hv := absurd ZSet.coeff_new hv

end IncrementalCoreNumbers

/-! ## Runs -/

/-- The states that committed ticks lead to, with their inputs. A tick that fails, or whose guard is
dropped, publishes nothing. -/
inductive CoreRuns : List (ZSet V × ZSet (V × V)) → IncrementalCoreNumbers V → Prop where
  | start : CoreRuns [] .new
  | commit {inputs : List (ZSet V × ZSet (V × V))} {s : IncrementalCoreNumbers V}
      {tick : ZSet V × ZSet (V × V)} {update : CoreUpdate V} (hrun : CoreRuns inputs s)
      (hok : s.prepare tick.1 tick.2 = .ok update) :
      CoreRuns (inputs ++ [tick]) (s.commit update).1

/-- Two distinct vertices are joined by an edge of positive multiplicity, in either direction. -/
def simpleEdge (inputs : List (ZSet V × ZSet (V × V))) (a b : V) : Prop :=
  a ≠ b ∧ 0 < edgeBag inputs a b

namespace CoreRuns

variable {inputs : List (ZSet V × ZSet (V × V))} {s : IncrementalCoreNumbers V}

/-- Accepted ticks are prepared ticks. -/
theorem prepared (h : s.Sound) {tick : ZSet V × ZSet (V × V)} {update : CoreUpdate V}
    (hok : s.prepare tick.1 tick.2 = .ok update) :
    IncrementalCoreNumbers.Prepared s tick.1 tick.2 update := by
  rcases prepare_cases h tick.1 tick.2 with
    ⟨update', hok', hprepared⟩ | ⟨error, herror, -⟩ | herror
  · cases hok.symm.trans hok'
    exact hprepared
  · cases hok.symm.trans herror
  · cases hok.symm.trans herror

theorem sound (h : CoreRuns inputs s) : s.Sound ∧
    (∀ v, s.topology.vertices.coeff v = vertexBag inputs v) ∧
      ∀ a b, s.topology.edges.coeff (canonical a b) = edgeBag inputs a b := by
  induction h with
  | start =>
    exact ⟨sound_new, fun v => coeff_new, fun a b => coeff_new⟩
  | @commit inputs s tick update hrun hok ih =>
    obtain ⟨hsound, hvertices, hedges⟩ := ih
    have hprepared := prepared hsound hok
    refine ⟨hsound.commit hprepared, fun v => ?_, fun a b => ?_⟩
    · change ((s.topology.commit update.topology).1.vertices.coeff v) = _
      rw [coeff_vertices_commit hprepared.topology, nextVertex, hvertices, vertexBag_concat]
    · change ((s.topology.commit update.topology).1.edges.coeff _) = _
      rw [coeff_edges_commit hprepared.topology, nextEdge, hedges, coeff_normalized, edgeBag_concat]

theorem live_iff (h : CoreRuns inputs s) (v : V) :
    s.topology.vertices.coeff v ≠ 0 ↔ vertexBag inputs v = 1 := by
  obtain ⟨hsound, hvertices, -⟩ := h.sound
  have hcases := hsound.topology.vertex_cases v
  rw [hvertices] at hcases ⊢
  omega

theorem joins_eq (h : CoreRuns inputs s) :
    IncrementalCoreNumbers.Joins s.topology = simpleEdge inputs := by
  obtain ⟨hsound, -, hedges⟩ := h.sound
  refine funext₂ fun a b => propext (and_congr_right fun _ => ?_)
  have hnonneg := hsound.topology.nonneg (canonical a b)
  rw [hedges] at hnonneg ⊢
  omega

end CoreRuns

/-- Along every run: exactly the live vertices have a core number, and it is the greatest `k` for
which the vertex lies in a set of vertices where each has at least `k` other neighbours in the set.
The delta that a commit returns is the difference of the old and the new rows, and neither `prepare`
nor `peel` finds the topology inconsistent. -/
theorem core_numbers_exact (inputs : List (ZSet V × ZSet (V × V))) (s : IncrementalCoreNumbers V)
    (h : CoreRuns inputs s) :
    (∀ v k, s.coreNumber v = some k ↔
      vertexBag inputs v = 1 ∧ IsCoreNumber (simpleEdge inputs) v k) ∧
    (∀ v, vertexBag inputs v = 1 → ∃ k, s.coreNumber v = some k) ∧
    ∀ vertexDelta edgeDelta, (∀ update, s.prepare vertexDelta edgeDelta = .ok update →
        ∀ v k, (s.commit update).2.coeff (v, k) =
          (if (s.commit update).1.coreNumber v = some k then 1 else 0) -
            (if s.coreNumber v = some k then 1 else 0)) ∧
      s.prepare vertexDelta edgeDelta ≠ .error .inconsistentTopology ∧
      ∀ topology, s.topology.prepare vertexDelta edgeDelta = .ok topology →
        Peeling.peel s.topology topology ≠ .error .inconsistentTopology := by
  obtain ⟨hsound, -, -⟩ := h.sound
  refine ⟨fun v k => ?_, fun v hv => ?_, fun vertexDelta edgeDelta => ⟨fun update hok v k => ?_, ?_,
    fun topology hok => ?_⟩⟩
  · rw [IncrementalCoreNumbers.coreNumber, hsound.numbers_iff, h.live_iff, h.joins_eq]
  · exact hsound.numbered v ((h.live_iff v).mpr hv)
  · exact IncrementalCoreNumbers.coeff_delta hsound
      (@CoreRuns.prepared V _ s hsound (vertexDelta, edgeDelta) update hok) v k
  · rcases IncrementalCoreNumbers.prepare_cases hsound vertexDelta edgeDelta with
      ⟨update, hok, -⟩ | ⟨error, herror, -⟩ | herror
    · simp [hok]
    · simp [herror]
    · simp [herror]
  · obtain ⟨hadmissible, hprepared⟩ := IncrementalComponents.prepare_ok hsound.topology hok
    rcases Peeling.peel_spec (IncrementalCoreNumbers.complete hsound.topology hprepared hadmissible)
      with hoverflow | ⟨numbers, hpeel, -⟩
    · simp [hoverflow]
    · simp [hpeel]

/-- One tick inserts a triangle: its vertices have core number two. -/
theorem core_numbers_exact_sample : ∃ s : IncrementalCoreNumbers Nat,
      CoreRuns [(ZSet.fromUpdates [(1, 1), (2, 1), (3, 1)],
        ZSet.fromUpdates [((1, 2), 1), ((2, 3), 1), ((3, 1), 1)])] s ∧
      s.coreNumber 1 = some 2 ∧
      IsCoreNumber (simpleEdge [(ZSet.fromUpdates [(1, 1), (2, 1), (3, 1)],
        ZSet.fromUpdates [((1, 2), 1), ((2, 3), 1), ((3, 1), 1)])]) 1 2 := by
  let tick : ZSet Nat × ZSet (Nat × Nat) := (ZSet.fromUpdates [(1, 1), (2, 1), (3, 1)],
    ZSet.fromUpdates [((1, 2), 1), ((2, 3), 1), ((3, 1), 1)])
  have hnumber : ((IncrementalCoreNumbers.new.prepare tick.1 tick.2).map
      fun update => (IncrementalCoreNumbers.new.commit update).1.coreNumber 1).toOption =
        some (some 2) := by
    decide +kernel
  cases hok : IncrementalCoreNumbers.new.prepare tick.1 tick.2 with
  | error error =>
    rw [hok] at hnumber
    cases hnumber
  | ok update =>
    rw [hok] at hnumber
    have hrun := @CoreRuns.commit Nat _ [] .new tick update .start hok
    have hcore := Option.some.inj hnumber
    exact ⟨_, hrun, hcore, (((core_numbers_exact _ _ hrun).1 1 2).mp hcore).2⟩

end FrankenGraph.Zset

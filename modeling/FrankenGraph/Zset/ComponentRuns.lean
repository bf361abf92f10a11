import FrankenGraph.Zset.ComponentCommits
import FrankenGraph.Zset.Checked

/-!
# Runs of the incremental components

Results:
* `checkedPrepare_follows`: a refused request only ends a tick earlier
* `ComponentRuns.sound`: the invariant and the integrated inputs of every state
* `components_exact`: labels, members, adjacency, counts, deltas and refusals along every run
-/

namespace FrankenGraph.Zset

open IncrementalComponents ZSet

open Std (ExtTreeMap ExtTreeSet)

variable {V : Type} [LinearOrder V]

namespace IncrementalComponents

/-- `prepare` (L155-335) with its requests; those after its checks are asked as one part. -/
def checkedPrepare (s : IncrementalComponents V) (tick : ZSet V × ZSet (V × V)) :
    Effect (CallError ZSetError ComponentError) Answers (ComponentUpdate V) := do
  asking Checked.event
  let vertices ← asking (Checked.prepareIntegration s.vertices tick.1)
  let normalized ← asking (Checked.map tick.2 fun e => canonical e.1 e.2)
  let edges ← asking (Checked.prepareIntegration s.edges normalized)
  let touched ← rounds Checked.event Checked.work (s.checkVertex edges) s.touchVertex vertices.toList ∅
  let staged ← rounds Checked.event Checked.work (s.checkEdge vertices) s.stageEdge edges.toList
    { touched, inserted := ∅, removed := ∅ }
  asking Checked.work
  settling (s.finish vertices edges staged)

/-- A call of `prepare` whose update is committed or dropped. -/
def run (s : IncrementalComponents V) (call : Call (ZSet V × ZSet (V × V))) :
    Ended (CallError ZSetError ComponentError) (ZSet (V × V)) × IncrementalComponents V :=
  call.run checkedPrepare commit s

theorem checkedPrepare_follows (s : IncrementalComponents V) (tick : ZSet V × ZSet (V × V)) :
    Follows (s.checkedPrepare tick) (s.prepare tick.1 tick.2) := by
  refine .asking_bind (Checked.request_computes _) ?_
  refine .asking_bind (Checked.prepareIntegration_computes s.vertices tick.1) ?_
  refine .asking_bind (Checked.map_computes tick.2 _) ?_
  refine .asking_bind (Checked.prepareIntegration_computes s.edges _) ?_
  refine (rounds_follows (Checked.request_computes _) Checked.work_computes _ _ _ _).bind
    fun touched _ => ?_
  refine (rounds_follows (Checked.request_computes _) Checked.work_computes _ _ _ _).bind
    fun staged _ => ?_
  exact .asking_bind Checked.work_computes (.settling _)

end IncrementalComponents

/-- The integrated weight of a vertex. -/
def vertexBag (inputs : List (ZSet V × ZSet (V × V))) (v : V) : Int :=
  (inputs.map fun tick => tick.1.coeff v).sum

/-- The integrated multiplicity of an unordered pair. -/
def edgeBag (inputs : List (ZSet V × ZSet (V × V))) (a b : V) : Int :=
  bag (inputs.map Prod.snd) a b

theorem vertexBag_concat (inputs : List (ZSet V × ZSet (V × V))) (tick : ZSet V × ZSet (V × V))
    (v : V) : vertexBag (inputs ++ [tick]) v = vertexBag inputs v + tick.1.coeff v := by
  simp [vertexBag]

theorem edgeBag_concat (inputs : List (ZSet V × ZSet (V × V))) (tick : ZSet V × ZSet (V × V))
    (a b : V) : edgeBag (inputs ++ [tick]) a b = edgeBag inputs a b + pairDelta tick.2 a b := by
  rw [edgeBag, List.map_append, List.map_singleton, bag_concat]
  rfl

/-- The component of a vertex in the undirected support graph. -/
def componentOf (inputs : List (ZSet V × ZSet (V × V))) (v : V) : Set V :=
  {u | Relation.ReflTransGen (fun a b => 0 < edgeBag inputs a b) v u}

/-- The integrated inputs break the rule that an error names. -/
def Breaks (inputs : List (ZSet V × ZSet (V × V))) : ComponentError → Prop
  | .vertexMultiplicity => ∃ v, vertexBag inputs v ≠ 0 ∧ vertexBag inputs v ≠ 1
  | .negativeEdgeMultiplicity => ∃ a b, edgeBag inputs a b < 0
  | .missingEndpoint => ∃ a b, edgeBag inputs a b ≠ 0 ∧ vertexBag inputs a = 0
  | .cardinalityOverflow => False

/-- The states that committed ticks lead to, with their inputs. A tick that fails, or whose guard is
dropped, publishes nothing. -/
inductive ComponentRuns : List (ZSet V × ZSet (V × V)) → IncrementalComponents V → Prop where
  | start : ComponentRuns [] .new
  | commit {inputs : List (ZSet V × ZSet (V × V))} {s : IncrementalComponents V}
      {tick : ZSet V × ZSet (V × V)} {update : ComponentUpdate V} (hrun : ComponentRuns inputs s)
      (hok : s.prepare tick.1 tick.2 = .ok update) :
      ComponentRuns (inputs ++ [tick]) (s.commit update).1

namespace ComponentRuns

variable {inputs : List (ZSet V × ZSet (V × V))} {s : IncrementalComponents V}

variable (h : ComponentRuns inputs s)
include h

theorem sound : s.Sound ∧ (∀ v, s.vertices.coeff v = vertexBag inputs v) ∧
      ∀ a b, s.edges.coeff (canonical a b) = edgeBag inputs a b := by
  induction h with
  | start => exact ⟨sound_new, fun v => coeff_new, fun a b => coeff_new⟩
  | commit hrun hok ih =>
    obtain ⟨hsound, hvertices, hedges⟩ := ih
    obtain ⟨hadmissible, hprepared⟩ := prepare_ok hsound hok
    refine ⟨hsound.commit hprepared hadmissible, fun v => ?_, fun a b => ?_⟩
    · rw [coeff_vertices_commit hprepared, nextVertex, hvertices, vertexBag_concat]
    · rw [coeff_edges_commit hprepared, nextEdge, hedges, coeff_normalized, edgeBag_concat]

/-- A tick breaks a rule for the state exactly when the integrated inputs break it. -/
theorem violates_iff (tick : ZSet V × ZSet (V × V)) (error : ComponentError) :
    s.Violates tick.1 tick.2 error ↔ Breaks (inputs ++ [tick]) error := by
  obtain ⟨hsound, hvertices, hedges⟩ := h.sound
  have hvertex : ∀ v, s.nextVertex tick.1 v = vertexBag (inputs ++ [tick]) v := fun v => by
    rw [nextVertex, hvertices, vertexBag_concat]
  have hedge : ∀ a b, s.nextEdge tick.2 (canonical a b) = edgeBag (inputs ++ [tick]) a b :=
    fun a b => by
      rw [nextEdge, hedges, coeff_normalized, edgeBag_concat]
  have hcanonical : ∀ e, s.nextEdge tick.2 e ≠ 0 → canonical e.1 e.2 = e :=
    fun e he => hsound.canonical_of_nextEdge he
  cases error with
  | vertexMultiplicity =>
    unfold IncrementalComponents.Violates Breaks
    simp only [hvertex]
  | negativeEdgeMultiplicity =>
    constructor
    · rintro ⟨e, hneg⟩
      exact ⟨e.1, e.2, by rwa [← hedge, hcanonical e hneg.ne]⟩
    · rintro ⟨a, b, hneg⟩
      exact ⟨canonical a b, by rwa [hedge]⟩
  | missingEndpoint =>
    constructor
    · rintro ⟨e, hlive, hgone | hgone⟩
      · exact ⟨e.1, e.2, by rwa [← hedge, hcanonical e hlive], by rwa [← hvertex]⟩
      · refine ⟨e.2, e.1, ?_, by rwa [← hvertex]⟩
        rwa [← hedge, canonical_comm, hcanonical e hlive]
    · rintro ⟨a, b, hlive, hgone⟩
      refine ⟨canonical a b, by rwa [hedge], ?_⟩
      rw [← hvertex] at hgone
      rcases canonical_pair a b with hpair | hpair <;> rw [hpair]
      · exact .inl hgone
      · exact .inr hgone
  | cardinalityOverflow => exact Iff.rfl

/-- The adjacency is that of the pairs of positive multiplicity. -/
theorem has_neighbors (a b : V) : s.neighbors.Has a b ↔ 0 < edgeBag inputs a b := by
  obtain ⟨hsound, -, hedges⟩ := h.sound
  rw [hsound.neighbors_iff, hedges]
  have hnonneg := hsound.nonneg (canonical a b)
  rw [hedges] at hnonneg
  omega

/-- The label of a live vertex is the least vertex of its component. -/
theorem labels_iff (v r : V) :
    s.labels[v]? = some r ↔ vertexBag inputs v = 1 ∧ IsLeast (componentOf inputs v) r := by
  obtain ⟨hsound, hvertices, -⟩ := h.sound
  have hadjacent : ∀ a b, b ∈ s.adjacentTo a ↔ 0 < edgeBag inputs a b := by
    intro a b
    rw [adjacentTo, ExtTreeSet.mem_toList, ← h.has_neighbors]
    rfl
  have hlive : s.vertices.coeff v ≠ 0 ↔ vertexBag inputs v = 1 := by
    have hcases := hsound.vertex_cases v
    rw [hvertices] at hcases ⊢
    omega
  have hconnected : ∀ u, Connected s.adjacentTo v u ↔ u ∈ componentOf inputs v := by
    intro u
    unfold Connected componentOf
    simp only [hadjacent]
    rfl
  rw [hsound.labels_iff, hlive]
  refine and_congr_right fun _ => ?_
  unfold Leader IsLeast lowerBounds
  simp only [hconnected]
  rfl

end ComponentRuns

/-- Along every run: the labels send exactly the live vertices to the least vertex of their
component in the undirected support graph, the members are the inverse of the labels, the neighbours
are the pairs of positive multiplicity, the prepared counts are those of the committed state, and the
returned delta is the difference of the label rows. A call commits what was prepared, or it leaves the
state as it was. It fails with an error of its own only when the integrated inputs break the rule of
that error; and when no request is refused, it is accepted exactly when they break no rule. -/
theorem components_exact (inputs : List (ZSet V × ZSet (V × V))) (s : IncrementalComponents V)
    (h : ComponentRuns inputs s) :
    (∀ v r, s.labels[v]? = some r ↔ vertexBag inputs v = 1 ∧ IsLeast (componentOf inputs v) r) ∧
    (∀ v, (∃ r, s.labels[v]? = some r) ↔ vertexBag inputs v = 1) ∧
    (∀ r v, s.members.Has r v ↔ s.labels[v]? = some r) ∧
    (∀ (r : V) (row : BTreeSet V), s.members[r]? = some row → r ∈ row) ∧
    (∀ a b, s.neighbors.Has a b ↔ 0 < edgeBag inputs a b) ∧
    ∀ call : Call (ZSet V × ZSet (V × V)),
      Transacts (s.prepare call.input.1 call.input.2) s.commit call s (s.run call) ∧
      (∀ update, s.prepare call.input.1 call.input.2 = .ok update →
        update.count = (s.commit update).1.componentCount ∧
        update.vertexCount = (s.commit update).1.vertexCount ∧
        ∀ v r, (s.commit update).2.coeff (v, r) =
          (if (s.commit update).1.labels[v]? = some r then 1 else 0) -
            (if s.labels[v]? = some r then 1 else 0)) ∧
      (false ∉ call.answers → ((∀ error, (s.run call).1 ≠ .failed error) ↔
        ∀ error, ¬ Breaks (inputs ++ [call.input]) error)) ∧
      ∀ error, (s.run call).1 = .failed (.own error) → Breaks (inputs ++ [call.input]) error := by
  obtain ⟨hsound, hvertices, -⟩ := h.sound
  have hcall : ∀ call, Transacts _ _ call s (s.run call) := fun call =>
    Call.run_transacts (s.checkedPrepare_follows call.input)
  refine ⟨h.labels_iff, fun v => ?_, hsound.members_iff, hsound.rows, h.has_neighbors, fun call =>
    ⟨hcall call, fun update hok => ?_, fun hgranted => ?_, fun error hfailed => ?_⟩⟩
  · refine ⟨fun hlabel => ((h.labels_iff v hlabel.choose).mp hlabel.choose_spec).1, fun hlive => ?_⟩
    refine hsound.labelled v ?_
    rw [hvertices, hlive]
    exact one_ne_zero
  · obtain ⟨hadmissible, hprepared⟩ := IncrementalComponents.prepare_ok hsound hok
    obtain ⟨hcount, hvertexCount⟩ := IncrementalComponents.counts_commit hprepared hsound hadmissible
    exact ⟨hcount, hvertexCount, IncrementalComponents.coeff_delta hprepared hsound hadmissible⟩
  · rw [(hcall call).accepted_iff hgranted]
    constructor
    · rintro ⟨update, hok⟩ error hbreaks
      obtain ⟨hadmissible, -⟩ := IncrementalComponents.prepare_ok hsound hok
      exact hadmissible error ((h.violates_iff _ error).mpr hbreaks)
    · intro hkept
      rcases IncrementalComponents.prepare_cases hsound call.input.1 call.input.2 with
        ⟨update, hok, -⟩ | ⟨error, -, hviolates⟩
      · exact ⟨update, hok⟩
      · exact absurd ((h.violates_iff _ error).mp hviolates) (hkept error)
  · have herror := (hcall call).own_error error hfailed
    rcases IncrementalComponents.prepare_cases hsound call.input.1 call.input.2 with
      ⟨update, hok, -⟩ | ⟨error', herror', hviolates⟩
    · cases herror.symm.trans hok
    · cases herror.symm.trans herror'
      exact (h.violates_iff _ error).mp hviolates

/-- One tick inserts two vertices and an edge between them: they form one component, which has the
lesser vertex for its label. -/
theorem components_exact_sample : ∃ s : IncrementalComponents Nat,
      ComponentRuns [(ZSet.fromUpdates [(1, 1), (2, 1)], ZSet.fromUpdates [((2, 1), 1)])] s ∧
        s.labels[2]? = some 1 ∧ IsLeast (componentOf
          [(ZSet.fromUpdates [(1, 1), (2, 1)], ZSet.fromUpdates [((2, 1), 1)])] 2) 1 := by
  obtain ⟨update, hok, hlabel⟩ : ∃ update, (IncrementalComponents.new :
      IncrementalComponents Nat).prepare (ZSet.fromUpdates [(1, 1), (2, 1)])
        (ZSet.fromUpdates [((2, 1), 1)]) = .ok update ∧
      (IncrementalComponents.new.commit update).1.labels[2]? = some 1 :=
    ⟨_, rfl, by decide +kernel⟩
  have hrun := @ComponentRuns.commit Nat _ [] .new (_, _) update .start hok
  exact ⟨_, hrun, hlabel, (((components_exact _ _ hrun).1 2 1).mp hlabel).2⟩

/-- Two rules are broken at once: a vertex has weight two and a pair a negative multiplicity. Only
the first error is returned. -/
theorem components_two_rules_broken :
    Breaks [(ZSet.fromUpdates [(1, 2)], ZSet.fromUpdates [((1, 1), -1)])]
        (.negativeEdgeMultiplicity) ∧
      ∃ e, (IncrementalComponents.new : IncrementalComponents Nat).prepare
        (ZSet.fromUpdates [(1, 2)]) (ZSet.fromUpdates [((1, 1), -1)]) = .error e ∧
        e ≠ .negativeEdgeMultiplicity := by
  refine ⟨⟨1, 1, by decide⟩, .vertexMultiplicity, rfl, by decide⟩

end FrankenGraph.Zset

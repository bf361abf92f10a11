import FrankenGraph.Zset.TriangleCounts
import FrankenGraph.Library.Partition

/-!
# Incremental connected components

`IncrementalComponents` (`zset/components.rs`): a set of vertices, the multiplicities of
unordered pairs with their symmetric adjacency, and for each vertex the least vertex of its
component, with the inverse map. A tick takes the old components of the vertices it touches, and cuts
what is live of them afterwards into components again.
-/

namespace FrankenGraph.Zset

open Std (ExtTreeMap ExtTreeSet)

variable {V : Type} [LinearOrder V]

/-- `ComponentError` (L28-36) without `Delta`, which is `CallError.refused`. -/
inductive ComponentError where
  | vertexMultiplicity
  | negativeEdgeMultiplicity
  | missingEndpoint
  | cardinalityOverflow
deriving DecidableEq

/-- `IncrementalComponents` (L58-64). -/
structure IncrementalComponents (V : Type) [LinearOrder V] where
  vertices : ZSet V
  edges : ZSet (V × V)
  neighbors : Adjacency V
  labels : BTreeMap V V
  members : Adjacency V

/-- `ComponentUpdate` (L364-377). -/
structure ComponentUpdate (V : Type) [LinearOrder V] where
  vertices : BTreeMap V Int
  edges : BTreeMap (V × V) Int
  inserted : Adjacency V
  removed : Adjacency V
  roots : BTreeSet V
  candidates : BTreeSet V
  labels : BTreeMap V V
  members : Adjacency V
  count : Nat
  vertexCount : Nat
  delta : ZSet (V × V)

/-- `present` (L144-148). -/
def present (base : ZSet V) (next : BTreeMap V Int) (vertex : V) : Bool :=
  ((next[vertex]?).or (base.weight vertex)).any (· ≠ 0)

/-- What the loop over the edges stages. -/
structure StagedEdges (V : Type) [LinearOrder V] where
  touched : BTreeSet V
  inserted : Adjacency V
  removed : Adjacency V

namespace IncrementalComponents

/-- `new` (L71-79). -/
def new : IncrementalComponents V where
  vertices := .new
  edges := .new
  neighbors := ∅
  labels := ∅
  members := ∅

variable (s : IncrementalComponents V)

/-- `component_count` (L83-85). -/
def componentCount : Nat :=
  s.members.size

/-- `vertex_count` (L80-82). -/
def vertexCount : Nat :=
  s.labels.size

/-- The checks of a vertex (L172-194): its weight is zero or one, and a retired vertex loses all
its edges. -/
def checkVertex (edges : BTreeMap (V × V) Int) (change : V × Int) : Option ComponentError :=
  if change.2 ≠ 0 ∧ change.2 ≠ 1 then some .vertexMultiplicity
  else if change.2 = 0 ∧ (s.neighbors.row change.1).toList.any
      (fun neighbor => edges[canonical change.1 neighbor]? ≠ some 0) then some .missingEndpoint
  else none

/-- A vertex whose presence changes is touched (L176-181). -/
def touchVertex (touched : BTreeSet V) (change : V × Int) : BTreeSet V :=
  if (s.vertices.weight change.1).isSome != (change.2 ≠ 0) then touched.insert change.1 else touched

/-- The checks of an edge (L200-209). -/
def checkEdge (vertices : BTreeMap V Int) (change : (V × V) × Int) : Option ComponentError :=
  if change.2 < 0 then some .negativeEdgeMultiplicity
  else if change.2 ≠ 0 ∧ (!present s.vertices vertices change.1.1 ||
      !present s.vertices vertices change.1.2) then some .missingEndpoint
  else none

/-- An edge whose presence changes is linked in the inserted or the removed relation
(L210-223). -/
def stageEdge (staged : StagedEdges V) (change : (V × V) × Int) : StagedEdges V :=
  let (a, b) := change.1
  let live := decide (change.2 ≠ 0)
  if live = (s.edges.weight (a, b)).isSome then staged
  else
    let touched := (staged.touched.insert a).insert b
    let link (relation : Adjacency V) :=
      let relation := relation.link a b
      if a ≠ b then relation.link b a else relation
    if live then { staged with touched, inserted := link staged.inserted }
    else { staged with touched, removed := link staged.removed }

/-- The neighbours of a vertex after the tick (L266-279). -/
def nextNeighbors (inserted removed : Adjacency V) (vertex : V) : List V :=
  ((s.neighbors.row vertex).toList ++ (inserted.row vertex).toList).filter
    fun neighbor => !(removed.row vertex).contains neighbor

/-- The rows of the label difference (L301-319). -/
def labelDelta (candidates : BTreeSet V) (labels : BTreeMap V V) : ZSet (V × V) :=
  rowDelta s.labels labels candidates

/-- The old components of the touched vertices (L224-230). -/
def affectedRoots (touched : BTreeSet V) : BTreeSet V :=
  touched.toList.foldl (fun roots vertex =>
    match s.labels[vertex]? with
    | some root => roots.insert root
    | none => roots) ∅

/-- The touched vertices and the members of their old components (L231-237). The source indexes
`members` by the root; it does not panic, as the root of a label has a row (`Sound.members_iff`). -/
def affected (touched roots : BTreeSet V) : BTreeSet V :=
  roots.toList.foldl (fun candidates root =>
    (s.members.row root).toList.foldl (fun candidates vertex => candidates.insert vertex) candidates)
    touched

/-- A count after a part of what is counted is replaced (L289-300). -/
def replaceCount (total old next : Nat) : Except ComponentError Nat :=
  if total < old then .error .cardinalityOverflow else .ok (total - old + next)

/-- The rest of `prepare` after its checks (L224-334). -/
def finish (vertices : BTreeMap V Int) (edges : BTreeMap (V × V) Int) (staged : StagedEdges V) :
    Except ComponentError (ComponentUpdate V) := do
  let roots := s.affectedRoots staged.touched
  let candidates := s.affected staged.touched roots
  let remaining := candidates.filter fun vertex => present s.vertices vertices vertex
  let oldVertices := (candidates.toList.filter fun vertex => s.labels.contains vertex).length
  let next := partition (s.nextNeighbors staged.inserted staged.removed) remaining
  let count ← replaceCount s.members.size roots.size next.members.size
  let vertexCount ← replaceCount s.labels.size oldVertices next.labels.size
  return {
    vertices
    edges
    inserted := staged.inserted
    removed := staged.removed
    roots
    candidates
    labels := next.labels
    members := next.members
    count
    vertexCount
    delta := s.labelDelta candidates next.labels }

/-- `prepare` (L155-335), with every request granted. -/
def prepare (vertexDelta : ZSet V) (edgeDelta : ZSet (V × V)) :
    Except ComponentError (ComponentUpdate V) := do
  let vertices := s.vertices.prepareIntegration vertexDelta
  let edges := s.edges.prepareIntegration (edgeDelta.map fun e => canonical e.1 e.2)
  let touched ← vertices.toList.foldlM (guarded (s.checkVertex edges) s.touchVertex) ∅
  let staged ← edges.toList.foldlM (guarded (s.checkEdge vertices) s.stageEdge)
    { touched, inserted := ∅, removed := ∅ }
  s.finish vertices edges staged

/-- `ComponentUpdate::commit` (L395-428). -/
def commit (update : ComponentUpdate V) : IncrementalComponents V × ZSet (V × V) :=
  let neighbors := update.removed.toList.foldl (fun neighbors e =>
    e.2.toList.foldl (fun (neighbors : Adjacency V) b => neighbors.unlink e.1 b) neighbors)
    s.neighbors
  let members := update.roots.toList.foldl (fun (members : Adjacency V) root => members.erase root)
    s.members
  let labels := update.candidates.toList.foldl (fun (labels : BTreeMap V V) v => labels.erase v)
    s.labels
  ({ vertices := s.vertices.publish update.vertices
     edges := s.edges.publish update.edges
     neighbors := neighbors.extend update.inserted
     labels := update.labels.toList.foldl (fun labels e => labels.insert e.1 e.2) labels
     members := update.members.toList.foldl (fun members e => members.insert e.1 e.2) members },
    update.delta)

end IncrementalComponents

end FrankenGraph.Zset

import FrankenGraph.Zset.ComponentCommits
import FrankenGraph.Library.StrongComponents

/-!
# Incremental strong components

`IncrementalStrongComponents` (`zset/components/strong.rs`): the incremental components
of the undirected projection guard the input, the directed edges are kept with their adjacency in both
directions, and each vertex has the least vertex of its strongly connected component. A tick classifies
anew the undirected components that it touches.
-/

namespace FrankenGraph.Zset

open Std (ExtTreeMap ExtTreeSet)

variable {V : Type} [LinearOrder V]

/-- `Directed` (L24-28). -/
structure Directed (V : Type) [LinearOrder V] where
  edges : ZSet (V × V)
  outgoing : Adjacency V
  incoming : Adjacency V

/-- `Membership` (L30-33). -/
structure StrongMembership (V : Type) [LinearOrder V] where
  labels : BTreeMap V V
  count : Nat

/-- `IncrementalStrongComponents` (L38-42). -/
structure IncrementalStrongComponents (V : Type) [LinearOrder V] where
  weak : IncrementalComponents V
  directed : Directed V
  membership : StrongMembership V

/-- `Changes` (L86-91) with the touched vertices. -/
structure DirectedChanges (V : Type) [LinearOrder V] where
  touched : BTreeSet V
  added : Adjacency V
  removed : Adjacency V
  addedReverse : Adjacency V
  removedReverse : Adjacency V

/-- `StrongComponentUpdate` (L378-388). -/
structure StrongComponentUpdate (V : Type) [LinearOrder V] where
  weak : ComponentUpdate V
  edges : BTreeMap (V × V) Int
  changes : DirectedChanges V
  candidates : BTreeSet V
  labels : BTreeMap V V
  count : Nat
  delta : ZSet (V × V)

/-- `Prospective::neighbors` (L98-128) without the removed entries, which its callers skip. -/
def prospective (base added removed : Adjacency V) (vertex : V) : List V :=
  ((base.row vertex).toList ++ (added.row vertex).toList).filter
    fun neighbor => !(removed.row vertex).contains neighbor

/-- `Prospective::classify` (L131-222). -/
def classify (base : Directed V) (changes : DirectedChanges V) (live : BTreeSet V) :
    Except ComponentError (Labelling V) :=
  strongComponents .missingEndpoint live
    (prospective base.outgoing changes.added changes.removed)
    (prospective base.incoming changes.addedReverse changes.removedReverse)

namespace IncrementalStrongComponents

/-- `new` (L49-62). -/
def new : IncrementalStrongComponents V where
  weak := .new
  directed := { edges := .new, outgoing := ∅, incoming := ∅ }
  membership := { labels := ∅, count := 0 }

variable (s : IncrementalStrongComponents V)

/-- `component_count` (L66-68). -/
def componentCount : Nat :=
  s.membership.count

/-- `representative` (L69-71). -/
def representative (vertex : V) : Option V :=
  s.membership.labels[vertex]?

/-- The check of an edge (L256-258). -/
def checkEdge (change : (V × V) × Int) : Option ComponentError :=
  if change.2 < 0 then some .negativeEdgeMultiplicity else none

/-- An edge whose presence changes touches its ends and is staged in both directions
(L259-281). -/
def stageEdge (changes : DirectedChanges V) (change : (V × V) × Int) : DirectedChanges V :=
  let (a, b) := change.1
  let live := decide (change.2 ≠ 0)
  if live = (s.directed.edges.weight (a, b)).isSome then changes
  else
    let touched := (changes.touched.insert a).insert b
    if live then { changes with touched, added := changes.added.link a b,
                                addedReverse := changes.addedReverse.link b a }
    else { changes with touched, removed := changes.removed.link a b,
                        removedReverse := changes.removedReverse.link b a }

/-- The vertices of the vertex delta (L251-253). -/
def touchVertices (vertexDelta : ZSet V) : BTreeSet V :=
  vertexDelta.iter.foldl (fun touched e => touched.insert e.1) ∅

/-- The old components of a set of vertices (L300-309). -/
def oldRoots (candidates : BTreeSet V) : BTreeSet V :=
  candidates.toList.foldl (fun roots vertex =>
    match s.membership.labels[vertex]? with
    | some root => roots.insert root
    | none => roots) ∅

/-- The rest of `prepare` after that of the undirected components (L299-351). -/
def finish (edges : BTreeMap (V × V) Int) (changes : DirectedChanges V) (candidates : BTreeSet V)
    (weak : ComponentUpdate V) : Except ComponentError (StrongComponentUpdate V) := do
  let live := candidates.filter fun vertex => present s.weak.vertices weak.vertices vertex
  let next ← classify s.directed changes live
  let count ← IncrementalComponents.replaceCount s.membership.count (s.oldRoots candidates).size
    next.count
  return {
    weak
    edges
    changes
    candidates
    labels := next.labels
    count
    delta := rowDelta s.membership.labels next.labels candidates }

/-- `prepare` (L232-352), with every request granted. -/
def prepare (vertexDelta : ZSet V) (edgeDelta : ZSet (V × V)) :
    Except ComponentError (StrongComponentUpdate V) := do
  let edges := s.directed.edges.prepareIntegration edgeDelta
  let changes ← edges.toList.foldlM (guarded checkEdge s.stageEdge)
    { touched := touchVertices vertexDelta, added := ∅, removed := ∅, addedReverse := ∅,
      removedReverse := ∅ }
  -- the source indexes `members` by each root; a root always has its row
  let candidates := s.weak.affected changes.touched (s.weak.affectedRoots changes.touched)
  let weak ← s.weak.prepare vertexDelta edgeDelta
  s.finish edges changes candidates weak

/-- `StrongComponentUpdate::commit` (L406-442). -/
def commit (update : StrongComponentUpdate V) : IncrementalStrongComponents V × ZSet (V × V) :=
  let outgoing := update.changes.removed.toList.foldl (fun outgoing e =>
    e.2.toList.foldl (fun (outgoing : Adjacency V) b => outgoing.unlink e.1 b) outgoing)
    s.directed.outgoing
  let incoming := update.changes.removed.toList.foldl (fun incoming e =>
    e.2.toList.foldl (fun (incoming : Adjacency V) b => incoming.unlink b e.1) incoming)
    s.directed.incoming
  let labels := update.candidates.toList.foldl (fun (labels : BTreeMap V V) v => labels.erase v)
    s.membership.labels
  ({ weak := (s.weak.commit update.weak).1
     directed := {
       edges := s.directed.edges.publish update.edges
       outgoing := outgoing.extend update.changes.added
       incoming := update.changes.added.toList.foldl (fun incoming e =>
         e.2.toList.foldl (fun (incoming : Adjacency V) b => incoming.link b e.1) incoming) incoming }
     membership := {
       labels := update.labels.toList.foldl (fun labels e => labels.insert e.1 e.2) labels
       count := update.count } }, update.delta)

end IncrementalStrongComponents

end FrankenGraph.Zset

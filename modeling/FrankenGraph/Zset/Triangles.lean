import FrankenGraph.Zset.Pairs
import FrankenGraph.Library.Adjacency
import FrankenGraph.Library.Loop

/-!
# Incremental triangles

`IncrementalTriangles` (`zset/triangles.rs`): the multiplicities of unordered pairs, the
symmetric adjacency of the pairs that are present, and the number of triangles. A tick stages the new
multiplicities and the change of every triangle with a changed side; a triangle is attributed to its
first changed side.
-/

namespace FrankenGraph.Zset

open Std

variable {V : Type} [LinearOrder V]

/-- `TriangleQuantifier` (L25-31). -/
inductive TriangleQuantifier where
  | distinct
  | all
deriving DecidableEq

/-- `TriangleError` (L33-37) without `Delta`, which is `CallError.refused`. -/
inductive TriangleError where
  | negativeMultiplicity
deriving DecidableEq

/-- `IncrementalTriangles` (L56-62). -/
structure IncrementalTriangles (V : Type) [LinearOrder V] where
  quantifier : TriangleQuantifier
  edges : ZSet (V × V)
  neighbors : Adjacency V
  total : Int

/-- `TriangleUpdate` (L351-357). -/
structure TriangleUpdate (V : Type) [LinearOrder V] where
  weights : BTreeMap (V × V) Int
  inserted : Adjacency V
  total : Int
  delta : ZSet (V × V × V)

/-- `candidates` (L105-114): the old row, then the inserted one. -/
def candidates (old inserted : Adjacency V) (a : V) : List V :=
  (old.row a).toList ++ (inserted.row a).toList

/-- `degree` (L115-118). -/
def degree (old inserted : Adjacency V) (a : V) : Nat :=
  (old.row a).size + (inserted.row a).size

/-- `adjacent` (L101-104). -/
def adjacent (old inserted : Adjacency V) (a b : V) : Bool :=
  (old.row a).contains b || (inserted.row a).contains b

/-- `stage_neighbor` (L119-132). -/
abbrev stageNeighbor (inserted : Adjacency V) (a b : V) : Adjacency V :=
  inserted.link a b

/-- `remove_neighbor` (L133-140). -/
abbrev removeNeighbor (neighbors : Adjacency V) (a b : V) : Adjacency V :=
  neighbors.unlink a b

/-- The three vertices in order (L202-208), for an edge with `a < b`. -/
def sortedTriple (a b third : V) : V × V × V :=
  if third < a then (third, a, b)
  else if third < b then (a, third, b)
  else (a, b, third)

/-- The sides of a triple in the order they are tried (L212-216). -/
def sides (t : V × V × V) : List (V × V) :=
  [(t.1, t.2.1), (t.1, t.2.2), (t.2.1, t.2.2)]

namespace IncrementalTriangles

/-- `new` (L64-71). -/
def new (quantifier : TriangleQuantifier) : IncrementalTriangles V where
  quantifier
  edges := .new
  neighbors := ∅
  total := 0

variable (s : IncrementalTriangles V)

/-- The endpoint whose candidates are scanned, and the one that is probed (L190-195). -/
def scanProbe (inserted : Adjacency V) (edge : V × V) : V × V :=
  if degree s.neighbors inserted edge.1 ≤ degree s.neighbors inserted edge.2 then
    (edge.1, edge.2)
  else (edge.2, edge.1)

/-- The weight of a side: a replacement comes first (L277-282). -/
def sideWeight (replacements : Option (BTreeMap (V × V) Int)) (edge : V × V) : Option Int :=
  (replacements.bind fun rows => rows[edge]?).or (s.edges.weight edge)

/-- `triangle_weight` (L269-300). -/
def triangleWeight (t : V × V × V) (replacements : Option (BTreeMap (V × V) Int)) : Int :=
  let weights := (sides t).map (s.sideWeight replacements)
  if weights.any fun weight => weight.all (· = 0) then 0
  else if s.quantifier = .distinct then 1
  else (weights.filterMap id).foldl (· * ·) 1

/-- What the first loop of `prepare` keeps of a changed edge (L164-184). -/
def stageEdge (staged : BTreeSet (V × V) × Adjacency V) (change : (V × V) × Int) :
    BTreeSet (V × V) × Adjacency V :=
  let (edge, next) := change
  let oldPresent := (s.edges.weight edge).isSome
  let newPresent := next ≠ 0
  if edge.1 = edge.2 then staged
  else
    let inserted :=
      if !oldPresent && newPresent then
        stageNeighbor (stageNeighbor staged.2 edge.1 edge.2) edge.2 edge.1
      else staged.2
    let effective :=
      if s.quantifier = .all || oldPresent != newPresent then staged.1.insert edge else staged.1
    (effective, inserted)

/-- The change of the triangle of an edge and a third vertex, when it belongs to that edge
(L198-238). -/
def triangleChange (weights : BTreeMap (V × V) Int) (inserted : Adjacency V)
    (effective : BTreeSet (V × V)) (edge : V × V) (probe third : V) :
    Option ((V × V × V) × Int) :=
  if third = edge.1 ∨ third = edge.2 ∨ adjacent s.neighbors inserted probe third = false then none
  else
    let t := sortedTriple edge.1 edge.2 third
    if (sides t).find? (fun side => effective.contains side) ≠ some edge then none
    else some (t, s.triangleWeight t (some weights) + -s.triangleWeight t none)

/-- The second loop of `prepare` (L186-240). -/
def triangleChanges (weights : BTreeMap (V × V) Int) (inserted : Adjacency V)
    (effective : BTreeSet (V × V)) : ZSet (V × V × V) :=
  effective.toList.foldl (fun output edge =>
    let (scan, probe) := s.scanProbe inserted edge
    (candidates s.neighbors inserted scan).foldl (fun output third =>
      match s.triangleChange weights inserted effective edge probe third with
      | none => output
      | some (t, change) => if change ≠ 0 then output.accumulate t change else output) output) .new

/-- `prepare` (L151-258), with every request granted. -/
def prepare (delta : ZSet (V × V)) : Except TriangleError (TriangleUpdate V) := do
  let normalized := delta.map fun e => canonical e.1 e.2
  let weights := s.edges.prepareIntegration normalized
  let (effective, inserted) ← weights.toList.foldlM
    (fun staged change =>
      if change.2 < 0 then .error .negativeMultiplicity else .ok (s.stageEdge staged change))
    (∅, ∅)
  let output := s.triangleChanges weights inserted effective
  return { weights, inserted, total := s.total + output.totalWeight, delta := output }

/-- `TriangleUpdate::commit` (L382-402). -/
def commit (update : TriangleUpdate V) : IncrementalTriangles V × ZSet (V × V × V) :=
  let neighbors := update.weights.toList.foldl
    (fun (neighbors : Adjacency V) e =>
      if e.2 = 0 ∧ e.1.1 ≠ e.1.2 then
        removeNeighbor (removeNeighbor neighbors e.1.1 e.1.2) e.1.2 e.1.1
      else neighbors) s.neighbors
  ({ s with
      edges := s.edges.publish update.weights
      neighbors := neighbors.extend update.inserted
      total := update.total },
    update.delta)

/-- `snapshot` (L304-347), with every request granted. -/
def snapshot : ZSet (V × V × V) :=
  s.edges.iter.foldl (fun output e =>
    let (a, b) := e.1
    if a = b then output
    else
      let (scan, probe) := s.scanProbe ∅ (a, b)
      (candidates s.neighbors ∅ scan).foldl (fun output third =>
        if third ≤ b ∨ adjacent s.neighbors ∅ probe third = false then output
        else output.accumulate (a, b, third) (s.triangleWeight (a, b, third) none)) output) .new

end IncrementalTriangles

end FrankenGraph.Zset

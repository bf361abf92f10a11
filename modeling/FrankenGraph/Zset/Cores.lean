import FrankenGraph.Zset.ComponentCommits
import FrankenGraph.Library.Cores

/-!
# Incremental core numbers

`IncrementalCoreNumbers` (`zset/components/kcore.rs`): the incremental components own
the graph, and one core number is kept for each vertex. A tick peels the region that the components
identify: it takes the vertices in the order of their degrees, and lowers the degrees of the
neighbours that are above that of the vertex taken.
-/

namespace FrankenGraph.Zset

open Std (ExtTreeMap ExtTreeSet)

variable {V : Type} [LinearOrder V]

/-- `CoreError` (L24-29), without the errors of limbs and control. -/
inductive CoreError where
  | topology (error : ComponentError)
  | degreeOverflow
  | inconsistentTopology
deriving DecidableEq

/-- `IncrementalCoreNumbers` (L55-58). -/
structure IncrementalCoreNumbers (V : Type) [LinearOrder V] where
  topology : IncrementalComponents V
  numbers : BTreeMap V Nat

/-- `CoreUpdate` (L240-245). -/
structure CoreUpdate (V : Type) [LinearOrder V] where
  topology : ComponentUpdate V
  replacements : BTreeMap V Nat
  delta : ZSet (V × Nat)

/-- What the loops of `peel` keep: the degrees of the vertices that are left, the same pairs in the
order in which they are taken, and the numbers of the vertices taken. -/
structure Peeling (V : Type) [LinearOrder V] where
  degrees : BTreeMap V Nat
  queue : BTreeSet (Nat × V)
  numbers : BTreeMap V Nat

/-- The greatest `u64`. -/
def u64Max : Nat := 2 ^ 64 - 1

namespace Peeling

variable (s : IncrementalComponents V) (update : ComponentUpdate V)

/-- `adjacent` (L94-105): the old neighbours, then the inserted ones. -/
def adjacent (vertex : V) : List V :=
  (s.neighbors.row vertex).toList ++ (update.inserted.row vertex).toList

/-- `retained` (L106-112). -/
def retained (vertex neighbor : V) : Bool :=
  vertex ≠ neighbor && !(update.removed.row vertex).contains neighbor

/-- One neighbour of the loop that counts a degree (L125-135). -/
def countNeighbor (vertex : V) (degree : Nat) (neighbor : V) : Except CoreError Nat :=
  if !retained update vertex neighbor then .ok degree
  else if !update.labels.contains neighbor then .error .inconsistentTopology
  else if degree = u64Max then .error .degreeOverflow
  else .ok (degree + 1)

/-- One vertex of the first loop (L122-140). -/
def enqueue (p : Peeling V) (vertex : V) : Except CoreError (Peeling V) := do
  let degree ← (adjacent s update vertex).foldlM (countNeighbor update vertex) 0
  return { p with
    degrees := p.degrees.insert vertex degree
    queue := p.queue.insert (degree, vertex) }

/-- One neighbour of a vertex that is taken (L151-167): a degree above that of the vertex is
lowered. -/
def lower (vertex : V) (degree : Nat) (p : Peeling V) (neighbor : V) :
    Except CoreError (Peeling V) :=
  if !retained update vertex neighbor then .ok p
  else
    match p.degrees[neighbor]? with
    | none => .ok p
    | some old =>
      if old ≤ degree then .ok p
      else if !p.queue.contains (old, neighbor) then .error .inconsistentTopology
      else .ok { p with
        degrees := p.degrees.insert neighbor (old - 1)
        queue := (p.queue.erase (old, neighbor)).insert (old - 1, neighbor) }

/-- Take one vertex of least degree (L142-169). -/
def popFirst (p : Peeling V) : Option (Except CoreError (Peeling V)) :=
  match p.queue.first? with
  | none => none
  | some (degree, vertex) =>
    if p.degrees[vertex]? ≠ some degree then some (.error .inconsistentTopology)
    else some do
      let p ← (adjacent s update vertex).foldlM (lower update vertex degree)
        { p with degrees := p.degrees.erase vertex, queue := p.queue.erase (degree, vertex) }
      return { p with numbers := p.numbers.insert vertex degree }

/-- `peel` (L114-171). Every round of the second loop takes one of the vertices. -/
def peel : Except CoreError (BTreeMap V Nat) := do
  let p ← update.labels.keys.foldlM (enqueue s update) { degrees := ∅, queue := ∅, numbers := ∅ }
  let p ← iterateM (popFirst s update) p.degrees.size p
  return p.numbers

end Peeling

namespace IncrementalCoreNumbers

/-- `new` (L65-70). -/
def new : IncrementalCoreNumbers V where
  topology := .new
  numbers := ∅

variable (s : IncrementalCoreNumbers V)

/-- `core_number` (L75-77). -/
def coreNumber (vertex : V) : Option Nat :=
  s.numbers[vertex]?

/-- `prepare` (L177-213). -/
def prepare (vertices : ZSet V) (edges : ZSet (V × V)) : Except CoreError (CoreUpdate V) := do
  let topology ← (s.topology.prepare vertices edges).mapError .topology
  let replacements ← Peeling.peel s.topology topology
  return {
    topology
    replacements
    delta := rowDelta s.numbers replacements topology.candidates }

/-- `CoreUpdate::commit` (L268-281). -/
def commit (update : CoreUpdate V) : IncrementalCoreNumbers V × ZSet (V × Nat) :=
  let numbers := update.topology.candidates.toList.foldl
    (fun (numbers : BTreeMap V Nat) vertex => numbers.erase vertex) s.numbers
  ({ topology := (s.topology.commit update.topology).1
     numbers := update.replacements.toList.foldl (fun numbers e => numbers.insert e.1 e.2) numbers },
    update.delta)

end IncrementalCoreNumbers

end FrankenGraph.Zset

import FrankenGraph.Zset.Pairs
import FrankenGraph.Library.Frontier

/-!
# Incremental reachability

`IncrementalReachability` (`zset/reachability.rs` and its parts `insertions.rs` and
`deletions.rs`): the multiplicities of directed edges with their adjacency in both directions, and the
pairs joined by one or more edges, again in both directions. A tick that only inserts extends the
pairs, one that only removes takes the lost pairs away, and any other computes the rows of the
affected sources anew.
-/

namespace FrankenGraph.Zset

open Std (ExtTreeMap ExtTreeSet)

variable {V : Type} [LinearOrder V]

/-- `ReachabilityError` (L29-33) without `Delta`, which is `CallError.refused`. -/
inductive ReachabilityError where
  | negativeMultiplicity
deriving DecidableEq

/-- `IncrementalReachability` (L55-63). -/
structure IncrementalReachability (V : Type) [LinearOrder V] where
  edges : ZSet (V × V)
  outgoing : Adjacency V
  incoming : Adjacency V
  reachable : Adjacency V
  predecessors : Adjacency V

/-- `ReachabilityUpdate` (L363-371). -/
structure ReachabilityUpdate (V : Type) [LinearOrder V] where
  weights : BTreeMap (V × V) Int
  inserted : Adjacency V
  removed : Adjacency V
  replacements : Adjacency V
  additions : Adjacency V
  delta : ZSet (V × V)

/-- The edges whose presence a tick changes. -/
structure EdgeChanges (V : Type) [LinearOrder V] where
  inserted : Adjacency V
  removed : Adjacency V

/-- All destinations of a relation. -/
def destinations (relation : Adjacency V) : BTreeSet V :=
  relation.toList.foldl (fun set e => e.2.toList.foldl (fun set v => set.insert v) set) ∅

namespace IncrementalReachability

/-- `new` (L72-80). -/
def new : IncrementalReachability V where
  edges := .new
  outgoing := ∅
  incoming := ∅
  reachable := ∅
  predecessors := ∅

variable (s : IncrementalReachability V)

/-- `contains` (L82-86). -/
def contains (source destination : V) : Bool :=
  (s.reachable.row source).contains destination

/-- The check of an edge (L159-161). -/
def checkEdge (change : (V × V) × Int) : Option ReachabilityError :=
  if change.2 < 0 then some .negativeMultiplicity else none

/-- `insert_pair` (L319-335). -/
abbrev insertPair (relation : Adjacency V) (source destination : V) : Adjacency V :=
  relation.link source destination

/-- `remove_pair` (L353-360). -/
abbrev removePair (relation : Adjacency V) (source destination : V) : Adjacency V :=
  relation.unlink source destination

/-- An edge whose presence changes is staged (L162-176). -/
def stageEdge (changes : EdgeChanges V) (change : (V × V) × Int) : EdgeChanges V :=
  let (source, destination) := change.1
  let newPresent := decide (change.2 ≠ 0)
  if (s.edges.weight change.1).isSome = newPresent then changes
  else if newPresent then { changes with inserted := insertPair changes.inserted source destination }
  else { changes with removed := insertPair changes.removed source destination }

/-! ## Ticks that only insert -/

/-- `seed_insertion` (`insertions.rs` L96-108). -/
def seedInsertion (destination : V) (seeds : Adjacency V) (source : V) : Adjacency V :=
  if s.contains source destination then seeds else insertPair seeds source destination

/-- The first loop of `derive_insertions` (`insertions.rs` L24-41): an inserted edge that does
not join a pair already joined is a seed for its source and the old predecessors of its source. -/
def seedInsertions (inserted : Adjacency V) : Adjacency V :=
  inserted.toList.foldl (fun seeds e =>
    e.2.toList.foldl (fun seeds destination =>
      if s.contains e.1 destination then seeds
      else (s.predecessors.row e.1).toList.foldl (s.seedInsertion destination)
        (s.seedInsertion destination seeds e.1)) seeds) ∅

/-- The old cone of a target (`insertions.rs` L56-69), for a source: nothing when the target is
already reached, otherwise the target and what it reached before, without what the source did. -/
def insertionCone (source : V) (reached : BTreeSet V) (target : V) : List V :=
  if s.contains source target || reached.contains target then []
  else (target :: (s.reachable.row target).toList).filter fun vertex => !s.contains source vertex

/-- The search from the seeds of a source (`insertions.rs` L46-88). -/
def insertionSearch (inserted : Adjacency V) (source : V) (targets : BTreeSet V) : BTreeSet V :=
  (saturate (s.insertionCone source) (fun vertex => (inserted.row vertex).toList)
    ((destinations inserted).toList.foldl (fun domain v =>
      (s.reachable.row v).toList.foldl (fun domain u => domain.insert u) (domain.insert v)) ∅)
    { reached := ∅, pending := targets.toList.reverse }).reached

/-- What the search from the seeds of each source reaches. -/
def insertionRows (inserted : Adjacency V) : List (V × BTreeSet V) :=
  (s.seedInsertions inserted).toList.map fun e => (e.1, s.insertionSearch inserted e.1 e.2)

/-- `derive_insertions` (`insertions.rs` L17-94). The weight of a pair is accumulated when its
destination is reached; here after the search, which gives the same Z-set. -/
def deriveInsertions (inserted : Adjacency V) : Adjacency V × ZSet (V × V) :=
  let rows := s.insertionRows inserted
  (rows.foldl (fun additions e =>
      if e.2.isEmpty then additions else additions.insert e.1 e.2) ∅,
    rows.foldl (fun output e =>
      e.2.toList.foldl (fun output vertex => output.accumulate (e.1, vertex) 1) output) .new)

/-! ## Ticks that only remove -/

/-- The pairs that may be lost (`deletions.rs` L31-49). -/
def deletionCandidates (removed : Adjacency V) : Adjacency V :=
  removed.toList.foldl (fun candidates e =>
    e.2.toList.foldl (fun candidates destination =>
      (e.1 :: (s.predecessors.row e.1).toList).foldl (fun candidates root =>
        (destination :: (s.reachable.row destination).toList).foldl
          (fun candidates target => insertPair candidates root target) candidates)
        candidates) candidates) ∅

/-- A target has an edge left from the source, or from a vertex outside the targets that the source
reached (`deletions.rs` L61-76). -/
def seeded (removed : Adjacency V) (source : V) (targets : BTreeSet V) (target : V) : Bool :=
  (s.incoming.row target).toList.any fun predecessor =>
    !(removed.row predecessor).contains target &&
      (predecessor = source || !targets.contains predecessor && s.contains source predecessor)

/-- The edges that are left inside the targets (`deletions.rs` L80-86). -/
def survivingTargets (removed : Adjacency V) (targets : BTreeSet V) (vertex : V) : List V :=
  (s.outgoing.row vertex).toList.filter fun target =>
    targets.contains target && !(removed.row vertex).contains target

/-- The targets that a source still reaches (`deletions.rs` L53-87). -/
def deletionSearch (removed : Adjacency V) (source : V) (targets : BTreeSet V) : BTreeSet V :=
  let seeds := targets.toList.filter (s.seeded removed source targets)
  (saturate (fun _ vertex => s.survivingTargets removed targets vertex) (fun vertex => [vertex])
    targets (seeds.foldl (Frontier.add fun vertex => [vertex])
      { reached := ∅, pending := [] })).reached

/-- `derive_deletions` (`deletions.rs` L24-98). -/
def deriveDeletions (removed : Adjacency V) : ZSet (V × V) :=
  (s.deletionCandidates removed).toList.foldl (fun output e =>
    let survived := s.deletionSearch removed e.1 e.2
    e.2.toList.foldl (fun output target =>
      if survived.contains target then output else output.accumulate (e.1, target) (-1)) output)
    .new

/-! ## Other ticks -/

/-- The edges that leave a vertex after the tick (L289-299). -/
def nextDestinations (inserted removed : Adjacency V) (vertex : V) : List V :=
  (s.outgoing.row vertex).toList.filter (fun v => !(removed.row vertex).contains v) ++
    (inserted.row vertex).toList

/-- `rederive` (L277-302). The source is expanded at the start and not pushed again. -/
def rederive (inserted removed : Adjacency V) (source : V) : BTreeSet V :=
  (saturate (fun _ vertex => s.nextDestinations inserted removed vertex)
    (fun vertex => if vertex = source then [] else [vertex])
    ((destinations inserted).toList.foldl (fun domain v => domain.insert v)
      (destinations s.outgoing))
    { reached := ∅, pending := [source] }).reached

/-- The sources whose rows may change (L207-215). -/
def affected (changes : EdgeChanges V) : BTreeSet V :=
  (changes.inserted.keys ++ changes.removed.keys).foldl (fun affected source =>
    (s.predecessors.row source).toList.foldl (fun affected v => affected.insert v)
      (affected.insert source)) ∅

/-- The difference between a new row and the old one (L222-249). -/
def rowChanges (output : ZSet (V × V)) (source : V) (next : BTreeSet V) : ZSet (V × V) :=
  let lost := (s.reachable.row source).toList.foldl (fun output destination =>
    if next.contains destination then output else output.accumulate (source, destination) (-1))
    output
  next.toList.foldl (fun output destination =>
    if s.contains source destination then output
    else output.accumulate (source, destination) 1) lost

/-- The new rows of the affected sources (L217-255). -/
def replaceRows (changes : EdgeChanges V) : Adjacency V × ZSet (V × V) :=
  let rows := (s.affected changes).toList.map fun source =>
    (source, s.rederive changes.inserted changes.removed source)
  (rows.foldl (fun replacements e => replacements.insert e.1 e.2) ∅,
    rows.foldl (fun output e => s.rowChanges output e.1 e.2) .new)

/-! ## Ticks -/

/-- The rest of `prepare` after its checks (L179-265). -/
def finish (weights : BTreeMap (V × V) Int) (changes : EdgeChanges V) :
    Except ReachabilityError (ReachabilityUpdate V) := do
  if changes.removed.isEmpty then
    let (additions, output) := s.deriveInsertions changes.inserted
    return { weights, inserted := changes.inserted, removed := changes.removed, replacements := ∅,
             additions, delta := output }
  else if changes.inserted.isEmpty then
    return { weights, inserted := changes.inserted, removed := changes.removed, replacements := ∅,
             additions := ∅, delta := s.deriveDeletions changes.removed }
  else
    let (replacements, output) := s.replaceRows changes
    return { weights, inserted := changes.inserted, removed := changes.removed, replacements,
             additions := ∅, delta := output }

/-- `prepare` (L146-266), with every request granted. -/
def prepare (delta : ZSet (V × V)) : Except ReachabilityError (ReachabilityUpdate V) := do
  let weights := s.edges.prepareIntegration delta
  let changes ← weights.toList.foldlM (guarded checkEdge s.stageEdge)
    { inserted := ∅, removed := ∅ }
  s.finish weights changes

/-- Publish one row of the delta (L419-433). -/
def publishPair (rows : Adjacency V × Adjacency V) (change : (V × V) × Int) :
    Adjacency V × Adjacency V :=
  let (source, destination) := change.1
  if change.2 < 0 then
    (removePair rows.1 source destination, removePair rows.2 destination source)
  else (rows.1, rows.2.link destination source)

/-- `ReachabilityUpdate::commit` (L382-435). -/
def commit (update : ReachabilityUpdate V) : IncrementalReachability V × ZSet (V × V) :=
  let outgoing := update.removed.toList.foldl (fun outgoing e =>
    e.2.toList.foldl (fun outgoing v => removePair outgoing e.1 v) outgoing) s.outgoing
  let incoming := update.removed.toList.foldl (fun incoming e =>
    e.2.toList.foldl (fun incoming v => removePair incoming v e.1) incoming) s.incoming
  let reachable := update.replacements.toList.foldl (fun (reachable : Adjacency V) e =>
    if e.2.isEmpty then reachable.erase e.1 else reachable.insert e.1 e.2) s.reachable
  let (reachable, predecessors) := update.delta.iter.foldl publishPair
    (reachable.extend update.additions, s.predecessors)
  ({ edges := s.edges.publish update.weights
     outgoing := outgoing.extend update.inserted
     incoming := update.inserted.toList.foldl (fun incoming e =>
       e.2.toList.foldl (fun (incoming : Adjacency V) v => incoming.link v e.1) incoming) incoming
     reachable
     predecessors }, update.delta)

end IncrementalReachability

end FrankenGraph.Zset

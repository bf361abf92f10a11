import FrankenGraph.Collections.Children

/-!
# The adaptive radix tree

The nodes, the tree and its iterators of `crates/fgdb-collections/src/art.rs` (L25-29,
188-199, 787-1129, 1152-1157, 1191-1440 and 1484-1584). The loops that descend along a key are recursions on what is left
of the key. A reference to a child that is written through is the child put back at its edge.
-/

namespace FrankenGraph.Art

/-- A key: a byte string. -/
abbrev Key := List UInt8

/-- `struct Entry` (L188-191). -/
structure Entry (V : Type) where
  key : Key
  value : V

/-- `struct Node` (L193-199); `pfx` is the field `prefix`. -/
inductive Node (V : Type)
  | mk (pfx : Key) (entry : Option (Entry V)) (children : Children (Node V))

variable {V : Type}

/-- `usize::MAX`. -/
def usizeMax : ℕ := 2 ^ 64 - 1

/-- `common_prefix_len` (L1152-1157). -/
def commonPrefixLen : Key → Key → ℕ
  | a :: left, b :: right => if a = b then commonPrefixLen left right + 1 else 0
  | _, _ => 0

namespace Node

/-- The field `prefix`. -/
def pfx : Node V → Key
  | .mk pfx _ _ => pfx

/-- The field `entry`. -/
def entry : Node V → Option (Entry V)
  | .mk _ entry _ => entry

/-- The field `children`. -/
def children : Node V → Children (Node V)
  | .mk _ _ children => children

/-- The descent leaves less of the key. -/
theorem rest_lt {key rest : Key} (h : key.drop n = edge :: rest) : rest.length < key.length := by
  have := congrArg List.length h
  rw [List.length_drop, List.length_cons] at this
  omega

/-- `Node::get` (L816-833). -/
def get (node : Node V) (remaining : Key) : Option V :=
  if node.pfx.isPrefixOf remaining then
    match _h : remaining.drop node.pfx.length with
    | [] => node.entry.map Entry.value
    | edge :: rest =>
      match node.children.get edge with
      | none => none
      | some child => child.get rest
  else none
termination_by remaining.length
decreasing_by exact rest_lt _h

/-- A write through `Node::get_mut` (L835-850): the value found is replaced by `write` of it. -/
def modify (node : Node V) (remaining : Key) (write : V → V) : Node V :=
  if node.pfx.isPrefixOf remaining then
    match _h : remaining.drop node.pfx.length with
    | [] =>
      .mk node.pfx (node.entry.map fun entry => { entry with value := write entry.value })
        node.children
    | edge :: rest =>
      match node.children.get edge with
      | none => node
      | some child =>
        .mk node.pfx node.entry (node.children.put edge (child.modify rest write))
  else node
termination_by remaining.length
decreasing_by exact rest_lt _h

/-- `Node::find_prefix_node` (L852-870). -/
def findPrefixNode (node : Node V) (remaining : Key) : Option (Node V) :=
  let common := commonPrefixLen node.pfx remaining
  if common = remaining.length then some node
  else if common ≠ node.pfx.length then none
  else
    match _h : remaining.drop common with
    | [] => none
    | edge :: rest =>
      match node.children.get edge with
      | none => none
      | some child => child.findPrefixNode rest
termination_by remaining.length
decreasing_by exact rest_lt _h

/-! ## Insertion -/

/-- `try_copy_bytes` (L1191-1204): a vector, then a push for each byte. -/
def tryCopyBytes {ε : Type} (error : ε) : Key → Effect ε Answers Key
  | [] => do
    request error
    pure []
  | byte :: bytes => do
    let copied ← tryCopyBytes error bytes
    request error
    pure (byte :: copied)

/-- `Entry::try_new` (L788-798). -/
def tryEntry {ε : Type} (error : ArtError → ε) (key : Key) (value : V) :
    Effect ε Answers (Entry V) := do
  let key ← tryCopyBytes (error (.region "copying an ART key")) key
  pure { key, value }

/-- `Node::try_leaf` (L802-814). -/
def tryLeaf {ε : Type} (error : ArtError → ε) (pfx fullKey : Key) (value : V) :
    Effect ε Answers (Node V) := do
  let pfx ← tryCopyBytes (error (.region "copying an ART leaf prefix")) pfx
  let entry ← tryEntry error fullKey value
  let children ← Children.tryEmpty error
  pure (.mk pfx (some entry) children)

/-- `Node::try_split_and_insert` (L916-1014): everything is reserved before the node is
moved. -/
def trySplitAndInsert (node : Node V) (common : ℕ) (remaining fullKey : Key) (value : V) :
    Effect (ArtError × Node V) Answers (Option V × Node V) := do
  let error := fun error => ((error : ArtError), node)
  match node.pfx.drop common with
  | [] => throw (.panic, node)
  | oldEdge :: suffix =>
    let parentPrefix ←
      tryCopyBytes (error (.region "splitting an ART prefix")) (node.pfx.take common)
    let oldSuffix ← tryCopyBytes (error (.region "copying a split ART suffix")) suffix
    let oldNode := Node.mk oldSuffix node.entry node.children
    match remaining.drop common with
    | [] =>
      let entry ← tryEntry error fullKey value
      request (error (.region "allocating split edges"))
      request (error (.region "allocating split edges"))
      let _ : List (Option (Node V)) ← Children.tryEmptyNodeSlots 1 (error (.region "allocating split nodes"))
      request (error (.region "materializing split edges"))
      pure (none, .mk parentPrefix (some entry) (.node4 [oldEdge] [some oldNode]))
    | newEdge :: rest =>
      let leaf ← tryLeaf error rest fullKey value
      request (error (.region "allocating split edges"))
      request (error (.region "allocating split edges"))
      let _ : List (Option (Node V)) ← Children.tryEmptyNodeSlots 2 (error (.region "allocating split nodes"))
      request (error (.region "materializing split edges"))
      request (error (.region "materializing split edges"))
      if newEdge < oldEdge then
        pure (none, .mk parentPrefix none
          (.node4 [newEdge, oldEdge] [some leaf, some oldNode]))
      else
        pure (none, .mk parentPrefix none
          (.node4 [oldEdge, newEdge] [some oldNode, some leaf]))

/-- `Node::try_insert` (L872-914). -/
def tryInsert (node : Node V) (remaining fullKey : Key) (value : V) :
    Effect (ArtError × Node V) Answers (Option V × Node V) :=
  let common := commonPrefixLen node.pfx remaining
  if common ≠ node.pfx.length then node.trySplitAndInsert common remaining fullKey value
  else
    match _h : remaining.drop common with
    | [] =>
      match node.entry with
      | some entry =>
        pure (some entry.value, .mk node.pfx (some { entry with value }) node.children)
      | none => do
        let entry ← tryEntry (fun error => (error, node)) fullKey value
        pure (none, .mk node.pfx (some entry) node.children)
    | edge :: rest =>
      match node.children.get edge with
      | some child =>
        (child.tryInsert rest fullKey value).translate
          (fun result => (result.1, .mk node.pfx node.entry (node.children.put edge result.2)))
          (fun failure => (failure.1, .mk node.pfx node.entry (node.children.put edge failure.2)))
      | none => do
        let leaf ← tryLeaf (fun error => (error, node)) rest fullKey value
        (node.children.tryInsert edge leaf).translate
          (fun children => (none, .mk node.pfx node.entry children))
          (fun failure => (failure.1, .mk node.pfx node.entry failure.2))
termination_by remaining.length
decreasing_by exact rest_lt _h

/-! ## Removal -/

/-- `entry.is_none() && children.len() == 0`. -/
def isEmpty (node : Node V) : Bool := node.entry.isNone && node.children.len == 0

/-- `Node::recompress_unary_best_effort` (L1097-1129). -/
def recompressUnaryBestEffort (node : Node V) : Effect ArtError Answers (Node V) :=
  match node.children.onlyChildRef with
  | none => pure node
  | some (edge, child) =>
    if node.entry.isSome then pure node
    else if usizeMax < node.pfx.length + 1 + child.pfx.length then pure node
    else do
      -- The prefix is resized at once or not at all.
      if ← granted then
        let pfx := node.pfx ++ edge :: child.pfx
        match ← node.children.takeOnlyChild with
        | (none, children) => pure (.mk pfx node.entry children)
        | (some (_, child), _) => pure (.mk pfx child.entry child.children)
      else pure node

/-- The first half of `Node::remove` (L1016-1040): the entry is taken out and its node
recompressed. `none` when there is no entry; otherwise the value, whether its node is now empty, and the node. -/
def takeEntry (node : Node V) (remaining : Key) :
    Effect ArtError Answers (Option (V × Bool × Node V)) :=
  if node.pfx.isPrefixOf remaining then
    match _h : remaining.drop node.pfx.length with
    | [] =>
      match node.entry with
      | none => pure none
      | some entry => do
        let node ← (Node.mk node.pfx none node.children).recompressUnaryBestEffort
        pure (some (entry.value, node.isEmpty, node))
    | edge :: rest =>
      match node.children.get edge with
      | none => pure none
      | some child => do
        match ← child.takeEntry rest with
        | none => pure none
        | some (value, empty, child) =>
          pure (some (value, empty, .mk node.pfx node.entry (node.children.put edge child)))
  else pure none
termination_by remaining.length
decreasing_by exact rest_lt _h

/-- `Node::prune_one_empty_child_on_path` (L1058-1095); `none` when it returns
`false`. -/
def pruneOneEmptyChildOnPath (node : Node V) (remaining : Key) :
    Effect ArtError Answers (Option (Node V)) :=
  if node.pfx.isPrefixOf remaining then
    match _h : remaining.drop node.pfx.length with
    | [] => pure none
    | edge :: rest =>
      match node.children.get edge with
      | none => pure none
      | some child =>
        if child.isEmpty then do
          let (_, children) ← node.children.remove edge
          let node ← (Node.mk node.pfx node.entry children).recompressUnaryBestEffort
          pure (some node)
        else do
          match ← child.pruneOneEmptyChildOnPath rest with
          | none => pure none
          | some child => pure (some (.mk node.pfx node.entry (node.children.put edge child)))
  else pure none
termination_by remaining.length
decreasing_by exact rest_lt _h

/-- The pruning loop of `Node::remove` (L1050-1054). -/
def prune : ℕ → Node V → Key → Effect ArtError Answers (Node V)
  | 0, node, _ => pure node
  | rounds + 1, node, remaining => do
    match ← node.pruneOneEmptyChildOnPath remaining with
    | none => pure node
    | some node => prune rounds node remaining

/-- `Node::remove` (L1016-1056). -/
def remove (node : Node V) (remaining : Key) : Effect ArtError Answers (Option V × Node V) := do
  match ← node.takeEntry remaining with
  | none => pure (none, node)
  | some (value, empty, node) =>
    if empty then
      let node ← prune remaining.length node remaining
      pure (some value, node)
    else pure (some value, node)

end Node

/-! ## The tree -/

/-- `struct ArtLimits` (L25-30). -/
structure ArtLimits where
  maxKeyBytes : ℕ
  maxEntries : ℕ

/-- `struct AdaptiveRadixTree` (L1207-1212). -/
structure AdaptiveRadixTree (V : Type) where
  root : Option (Node V)
  len : ℕ
  limits : ArtLimits

namespace AdaptiveRadixTree

/-- `AdaptiveRadixTree::with_limits_in` (L1234-1241). -/
def withLimitsIn (limits : ArtLimits) : AdaptiveRadixTree V := ⟨none, 0, limits⟩

/-- `AdaptiveRadixTree::get` (L1311-1316). -/
def get (tree : AdaptiveRadixTree V) (key : Key) : Option V :=
  match tree.root with
  | none => none
  | some root => root.get key

/-- `AdaptiveRadixTree::get_mut` (L1319-1324) and a write through it. -/
def getMut (tree : AdaptiveRadixTree V) (key : Key) (write : V → V) :
    Option V × AdaptiveRadixTree V :=
  (tree.get key, { tree with root := tree.root.map fun root => root.modify key write })

/-- The insertion after the limits are checked; `len` is the length it leaves. -/
def insertAdmitted (tree : AdaptiveRadixTree V) (key : Key) (value : V) (len : ℕ) :
    Effect (ArtError × AdaptiveRadixTree V) Answers (Option V × AdaptiveRadixTree V) := do
  request (.region "admitting an ART insertion", tree)
  match tree.root with
  | some root =>
    (root.tryInsert key key value).translate
      (fun result => (result.1, { tree with root := some result.2, len }))
      (fun failure => (failure.1, { tree with root := some failure.2 }))
  | none => do
    let leaf ← Node.tryLeaf (fun error => (error, tree)) key key value
    pure (none, { tree with root := some leaf, len })

/-- `AdaptiveRadixTree::try_insert` (L1273-1307). -/
def tryInsert (tree : AdaptiveRadixTree V) (key : Key) (value : V) :
    Effect (ArtError × AdaptiveRadixTree V) Answers (Option V × AdaptiveRadixTree V) :=
  if tree.limits.maxKeyBytes < key.length then
    throw (.keyTooLong key.length tree.limits.maxKeyBytes, tree)
  else if (tree.get key).isNone ∧ tree.limits.maxEntries ≤ tree.len then
    throw (.entryLimitReached tree.limits.maxEntries, tree)
  else
    tree.insertAdmitted key value (if (tree.get key).isNone then tree.len + 1 else tree.len)

/-- `AdaptiveRadixTree::remove` (L1340-1363). -/
def remove (tree : AdaptiveRadixTree V) (key : Key) :
    Effect (ArtError × AdaptiveRadixTree V) Answers (Option V × AdaptiveRadixTree V) := do
  request (.region "admitting an ART removal", tree)
  match tree.root with
  | none => pure (none, tree)
  | some root => do
    let (removed, root) ← (root.remove key).translate id fun error => (error, tree)
    match removed with
    | none => pure (none, { tree with root := some root })
    | some value =>
      pure (some value,
        { tree with root := if root.isEmpty then none else some root, len := tree.len - 1 })

end AdaptiveRadixTree

/-! ## Iteration -/

/-- `struct IterFrame` (L1484-1488). -/
structure IterFrame (V : Type) where
  node : Node V
  yieldedEntry : Bool
  nextChild : ℕ

/-- A frame that has not begun. -/
def IterFrame.start (node : Node V) : IterFrame V := ⟨node, false, 0⟩

/-- One pass of the loop of `ArtIter::next`: `none` when the stack is empty, otherwise what the pass
returns, if it does, and the stack; the top of the stack is the head. -/
def iterPass : List (IterFrame V) → Option (Option (Key × V) × List (IterFrame V))
  | [] => none
  | frame :: stack =>
    if frame.yieldedEntry = false ∧ frame.node.entry.isSome then
      some (frame.node.entry.map fun entry => (entry.key, entry.value),
        { frame with yieldedEntry := true } :: stack)
    else if frame.nextChild < frame.node.children.len then
      let advanced := ⟨frame.node, true, frame.nextChild + 1⟩
      match frame.node.children.edgeAt frame.nextChild with
      | some (_, child) => some (none, IterFrame.start child :: advanced :: stack)
      | none => some (none, advanced :: stack)
    else some (none, stack)

/-- `ArtIter::next` (L1512-1536) within `fuel` passes; `none` when they do not suffice. -/
def iterNext : ℕ → List (IterFrame V) → Option (Option (Key × V) × List (IterFrame V))
  | 0, _ => none
  | fuel + 1, stack =>
    match iterPass stack with
    | none => some (none, stack)
    | some (some item, stack) => some (some item, stack)
    | some (none, stack) => iterNext fuel stack

/-- All that `ArtIter` yields, with `fuel` for every call and for the number of calls. -/
def iterAll (fuel : ℕ) : ℕ → List (IterFrame V) → Option (List (Key × V))
  | 0, _ => none
  | calls + 1, stack =>
    match iterNext fuel stack with
    | none => none
    | some (none, _) => some []
    | some (some item, stack) => (iterAll fuel calls stack).map (item :: ·)

/-- `enum Bound`. -/
inductive Bound
  | included (key : Key)
  | excluded (key : Key)
  | unbounded

/-- `above_start` of `ArtRange::next`. -/
def Bound.aboveStart : Bound → Key → Bool
  | .included start, key => (compare start key).isLE
  | .excluded start, key => compare start key = .lt
  | .unbounded, _ => true

/-- `below_end` of `ArtRange::next`. -/
def Bound.belowEnd : Bound → Key → Bool
  | .included stop, key => (compare key stop).isLE
  | .excluded stop, key => compare key stop = .lt
  | .unbounded, _ => true

/-- All that `ArtRange` (L1556-1582) yields from the items of its inner iterator. -/
def rangeItems (start stop : Bound) : List (Key × V) → List (Key × V)
  | [] => []
  | item :: items =>
    if !start.aboveStart item.1 then rangeItems start stop items
    else if stop.belowEnd item.1 then item :: rangeItems start stop items
    else []

namespace AdaptiveRadixTree

/-- `AdaptiveRadixTree::iter` (L1367-1369) run to its end. -/
def iter (tree : AdaptiveRadixTree V) (fuel : ℕ) : Option (List (Key × V)) :=
  iterAll fuel fuel (tree.root.map IterFrame.start).toList

/-- `AdaptiveRadixTree::prefix_iter` (L1382-1391) run to its end. -/
def prefixIter (tree : AdaptiveRadixTree V) (pfx : Key) (fuel : ℕ) : Option (List (Key × V)) :=
  iterAll fuel fuel ((tree.root.bind fun root => root.findPrefixNode pfx).map IterFrame.start).toList

/-- `AdaptiveRadixTree::range` (L1431-1440) run to its end. -/
def range (tree : AdaptiveRadixTree V) (start stop : Bound) (fuel : ℕ) :
    Option (List (Key × V)) :=
  (tree.iter fuel).map (rangeItems start stop)

end AdaptiveRadixTree

end FrankenGraph.Art

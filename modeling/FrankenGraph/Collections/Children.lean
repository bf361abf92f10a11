import FrankenGraph.Library.BinarySearch
import FrankenGraph.Library.Refusal

/-!
# The children of a node of the adaptive radix tree

`Children` of `crates/fgdb-collections/src/art.rs` (L144-149, 201-770 and 1159-1190): the
four layouts of the edges below a node, with growth, removal and best-effort demotion.

Every allocation asks for an answer. A method that changes `self` and fails gives `self` as it is then
beside the error. A slice index out of range, which would panic, is the error `panic`.
-/

namespace FrankenGraph.Art

/-- `enum ArtError` (L43-55), with the panics of slice indices. The cause of a refusal is left
out. -/
inductive ArtError
  | keyTooLong (len max : ℕ)
  | entryLimitReached (max : ℕ)
  | region (operation : String)
  | invariantViolation (operation : String)
  | panic
deriving DecidableEq

/-- `enum Children` (L201-220) over the type of nodes. A `RegionVec` is a list. -/
inductive Children (N : Type)
  | node4 (keys : List UInt8) (nodes : List (Option N))
  | node16 (keys : List UInt8) (nodes : List (Option N))
  | node48 (index : List UInt8) (nodes : List (Option N)) (len : ℕ)
  | node256 (nodes : List (Option N)) (len : ℕ)

variable {N : Type}

/-- `keys.as_slice().binary_search(&edge)`. -/
def searchEdge (keys : List UInt8) (edge : UInt8) : Except ℕ ℕ :=
  binarySearchBy (fun key => compare key edge) keys

/-- `encode_node48_slot` (L1159-1162). -/
def encodeNode48Slot (slot : ℕ) : UInt8 := UInt8.ofNat slot + 1

namespace Children

/-- The value of `Children::empty`. -/
def empty : Children N := .node4 [] []

/-- `Children::len` (L250-255). -/
def len : Children N → ℕ
  | .node4 keys _ | .node16 keys _ => keys.length
  | .node48 _ _ len | .node256 _ len => len

/-- The slot of an edge: `get` and `get_mut` read and write there. -/
def slotOf : Children N → UInt8 → Option ℕ
  | .node4 keys _, edge | .node16 keys _, edge => (searchEdge keys edge).toOption
  | .node48 index _ _, edge =>
    match index[edge.toNat]? with
    | none => none
    | some slot => if slot ≠ 0 then some (slot.toNat - 1) else none
  | .node256 _ _, edge => some edge.toNat

/-- The vector of child nodes. -/
def nodes : Children N → List (Option N)
  | .node4 _ nodes | .node16 _ nodes | .node48 _ nodes _ | .node256 nodes _ => nodes

/-- `Children::get` (L257-273). -/
def get (c : Children N) (edge : UInt8) : Option N :=
  match c.slotOf edge with
  | none => none
  | some slot => (c.nodes[slot]?).join

/-- The same layout with other nodes. -/
def withNodes : Children N → List (Option N) → Children N
  | .node4 keys _, nodes => .node4 keys nodes
  | .node16 keys _, nodes => .node16 keys nodes
  | .node48 index _ len, nodes => .node48 index nodes len
  | .node256 _ len, nodes => .node256 nodes len

/-- A write through `Children::get_mut` (L275-297). -/
def put (c : Children N) (edge : UInt8) (node : N) : Children N :=
  match c.slotOf edge with
  | none => c
  | some slot => c.withNodes (c.nodes.set slot (some node))

/-- The scan of `edge_at` over the wide layouts: `found` is `none` where the source returns, and
`some none` at a vacant edge. -/
def scan {α : Type} (found : ℕ → Option (Option α)) : List ℕ → ℕ → Option (ℕ × α)
  | [], _ => none
  | edge :: edges, ordinal =>
    match found edge with
    | none => none
    | some none => scan found edges ordinal
    | some (some a) => if ordinal = 0 then some (edge, a) else scan found edges (ordinal - 1)

/-- `Children::edge_at` (L299-333). -/
def edgeAt (c : Children N) (ordinal : ℕ) : Option (UInt8 × N) :=
  match c with
  | .node4 keys nodes | .node16 keys nodes => do
    let key ← keys[ordinal]?
    let node ← (nodes[ordinal]?).join
    some (key, node)
  | .node48 index nodes _ => do
    let (edge, slot) ← scan
      (fun edge => index[edge]?.map fun slot => if slot ≠ 0 then some slot else none)
      (List.range 256) ordinal
    let node ← (nodes[slot.toNat - 1]?).join
    some (UInt8.ofNat edge, node)
  | .node256 nodes _ => do
    let (edge, node) ← scan (fun edge => some (nodes[edge]?).join) (List.range 256) ordinal
    some (UInt8.ofNat edge, node)

/-- `Children::only_child_ref` (L335-337). -/
def onlyChildRef (c : Children N) : Option (UInt8 × N) :=
  if c.len = 1 then c.edgeAt 0 else none

/-! ## Insertion -/

/-- `Children::try_reserve` (L339-350). -/
def tryReserve {ε : Type} (additional : ℕ) (error : ε) : Effect ε Answers Unit :=
  if additional = 0 then pure () else request error

/-- `Children::empty` (L228-239), which opens two vectors. -/
def tryEmpty {ε : Type} (error : ArtError → ε) : Effect ε Answers (Children N) := do
  request (error (.region "opening empty ART child edges"))
  request (error (.region "opening empty ART child nodes"))
  pure empty

/-- A vector with a capacity, then its elements. -/
def tryFilled {ε α : Type} (count : ℕ) (value : α) (error : ε) : Effect ε Answers (List α) := do
  request error
  request error
  pure (List.replicate count value)

/-- `try_zeroed_node48_index` (L1164-1175). -/
abbrev tryZeroedNode48Index {ε : Type} (error : ε) : Effect ε Answers (List UInt8) :=
  tryFilled 256 0 error

/-- `try_empty_node_slots` (L1177-1189). -/
abbrev tryEmptyNodeSlots {ε : Type} (capacity : ℕ) (error : ε) : Effect ε Answers (List (Option N)) :=
  tryFilled capacity none error

/-- `Children::try_prepare_pair` and `try_insert_pair` (L352-386); `self` puts the two
vectors back in their layout. -/
def tryInsertPair (self : List UInt8 → List (Option N) → Children N) (keys : List UInt8)
    (nodes : List (Option N)) (capacity : ℕ) (edge : UInt8) (node : N) (operation : String) :
    Effect (ArtError × Children N) Answers (List UInt8 × List (Option N)) := do
  tryReserve (capacity - keys.length) (.region operation, self keys nodes)
  tryReserve (capacity - nodes.length) (.region operation, self keys nodes)
  let slot := match searchEdge keys edge with
    | .ok slot => slot
    | .error slot => slot
  if keys.length < slot then throw (.region operation, self keys nodes)
  request (.region operation, self keys nodes)
  let longer := keys.insertIdx slot edge
  if nodes.length < slot then throw (.region operation, self (longer.eraseIdx slot) nodes)
  request (.region operation, self (longer.eraseIdx slot) nodes)
  pure (longer, nodes.insertIdx slot (some node))

/-- `Children::try_grow_4_to_16` (L467-501). -/
def tryGrow4To16 (keys : List UInt8) (nodes : List (Option N)) (edge : UInt8) (node : N) :
    Effect (ArtError × Children N) Answers (Children N) := do
  let _ ← tryEmpty (N := N) fun error => (error, .node4 keys nodes)
  let (keys, nodes) ←
    tryInsertPair .node4 keys nodes 16 edge node "promoting Node4 to Node16"
  pure (.node16 keys nodes)

/-- The loop of `try_grow_16_to_48` over the old edges. -/
def fillNode48 : List UInt8 → List (Option N) → ℕ → List UInt8 → List (Option N) →
    Except ArtError (List UInt8 × List (Option N))
  | [], _, _, index, newNodes => .ok (index, newNodes)
  | edge :: keys, nodes, slot, index, newNodes =>
    if index.length ≤ edge.toNat then
      .error (.invariantViolation "materializing a Node48 edge index")
    else if newNodes.length ≤ slot then
      .error (.invariantViolation "materializing a Node48 child slot")
    else
      match nodes with
      | [] => .error .panic
      | node :: nodes =>
        fillNode48 keys nodes (slot + 1) (index.set edge.toNat (encodeNode48Slot slot))
          (newNodes.set slot node)

/-- `Children::try_grow_16_to_48` (L503-557); after the vectors are taken out, `self` is
the placeholder. -/
def tryGrow16To48 (keys : List UInt8) (nodes : List (Option N)) (edge : UInt8) (node : N) :
    Effect (ArtError × Children N) Answers (Children N) := do
  let self := Children.node16 keys nodes
  let newIndex ← tryZeroedNode48Index (.region "promoting Node16 to Node48", self)
  let newNodes ← tryEmptyNodeSlots 48 (.region "promoting Node16 to Node48", self)
  let placeholder ← tryEmpty fun error => (error, self)
  match fillNode48 keys nodes 0 newIndex newNodes with
  | .error error => throw (error, placeholder)
  | .ok (index, newNodes) =>
    if newNodes.length ≤ keys.length then
      throw (.invariantViolation "adding the promoted Node48 edge", placeholder)
    else if index.length ≤ edge.toNat then
      throw (.invariantViolation "indexing the promoted Node48 edge", placeholder)
    else
      pure (.node48 (index.set edge.toNat (encodeNode48Slot keys.length))
        (newNodes.set keys.length (some node)) (keys.length + 1))

/-- The loop of `try_grow_48_to_256` over all edges. -/
def fillNode256 (index : List UInt8) : List ℕ → List (Option N) → List (Option N) →
    Except ArtError (List (Option N))
  | [], _, newNodes => .ok newNodes
  | edge :: edges, nodes, newNodes =>
    match index[edge]? with
    | none => .error (.invariantViolation "reading a Node48 edge during promotion")
    | some slot =>
      if slot = 0 then fillNode256 index edges nodes newNodes
      else
        match (nodes[slot.toNat - 1]?).join with
        | none => .error (.invariantViolation "moving a Node48 child during promotion")
        | some node =>
          if newNodes.length ≤ edge then
            .error (.invariantViolation "writing a Node256 child during promotion")
          else
            fillNode256 index edges (nodes.set (slot.toNat - 1) none)
              (newNodes.set edge (some node))

/-- `Children::try_grow_48_to_256` (L559-613). -/
def tryGrow48To256 (index : List UInt8) (nodes : List (Option N)) (oldLen : ℕ) (edge : UInt8)
    (node : N) : Effect (ArtError × Children N) Answers (Children N) := do
  let self := Children.node48 index nodes oldLen
  let newNodes ← tryEmptyNodeSlots 256 (.region "promoting Node48 to Node256", self)
  let placeholder ← tryEmpty fun error => (error, self)
  match fillNode256 index (List.range 256) nodes newNodes with
  | .error error => throw (error, placeholder)
  | .ok newNodes =>
    if newNodes.length ≤ edge.toNat then
      throw (.invariantViolation "adding the promoted Node256 edge", placeholder)
    else pure (.node256 (newNodes.set edge.toNat (some node)) (oldLen + 1))

/-- `Children::try_insert` (L388-465). -/
def tryInsert (c : Children N) (edge : UInt8) (node : N) :
    Effect (ArtError × Children N) Answers (Children N) :=
  match c with
  | .node4 keys nodes =>
    if keys.length < 4 then do
      let (keys, nodes) ← tryInsertPair .node4 keys nodes 4 edge node "growing Node4"
      pure (.node4 keys nodes)
    else tryGrow4To16 keys nodes edge node
  | .node16 keys nodes =>
    if keys.length < 16 then do
      let (keys, nodes) ← tryInsertPair .node16 keys nodes 16 edge node "growing Node16"
      pure (.node16 keys nodes)
    else tryGrow16To48 keys nodes edge node
  | .node48 index nodes len =>
    if len < 48 then
      match nodes.findIdx? Option.isNone with
      | none => throw (.invariantViolation "finding a vacant Node48 slot", c)
      | some slot =>
        -- The slot was found in `nodes`, so writing it cannot fail.
        if index.length ≤ edge.toNat then
          throw (.invariantViolation "writing a Node48 edge index",
            .node48 index (nodes.set slot (some node)) len)
        else
          pure (.node48 (index.set edge.toNat (encodeNode48Slot slot))
            (nodes.set slot (some node)) (len + 1))
    else tryGrow48To256 index nodes len edge node
  | .node256 nodes len =>
    if nodes.length ≤ edge.toNat then throw (.invariantViolation "writing a Node256 edge", c)
    else pure (.node256 (nodes.set edge.toNat (some node)) (len + 1))

/-! ## Removal -/

/-- Whether all of `count` requests are granted; the first refusal ends them. -/
def grantedAll {ε : Type} : ℕ → Effect ε Answers Bool
  | 0 => pure true
  | count + 1 => do if ← granted then grantedAll count else pure false

/-- The loop that moves the children of a Node48 in the order of their edges. -/
def takeInOrder (index : List UInt8) : List UInt8 → List (Option N) → List (Option N)
  | [], _ => []
  | edge :: edges, nodes =>
    let slot := (index[edge.toNat]?.getD 0).toNat - 1
    (nodes[slot]?).join :: takeInOrder index edges (nodes.set slot none)

/-- The edges of a Node48 in order. -/
def indexedEdges (index : List UInt8) : List UInt8 :=
  ((List.range 256).filter fun edge => decide (index[edge]?.getD 0 ≠ 0)).map UInt8.ofNat

/-- The loop that compacts the children of a Node256. -/
def compactNodes : List ℕ → List (Option N) → ℕ → List UInt8 → List (Option N) →
    Except ArtError (List UInt8 × List (Option N))
  | [], _, _, index, compact => .ok (index, compact)
  | edge :: edges, nodes, slot, index, compact =>
    match (nodes[edge]?).join with
    | none => compactNodes edges nodes slot index compact
    | some node =>
      if compact.length ≤ slot ∨ index.length ≤ edge then .error .panic
      else
        compactNodes edges (nodes.set edge none) (slot + 1) (index.set edge (encodeNode48Slot slot))
          (compact.set slot (some node))

/-- One pass of the loop of `Children::shrink_best_effort`; `none` when it returns. -/
def shrinkStep (c : Children N) : Effect ArtError Answers (Option (Children N)) :=
  match c with
  | .node16 keys nodes =>
    if keys.length ≤ 4 then do
      if ← grantedAll 2 then pure (some (.node4 keys nodes)) else pure none
    else pure none
  | .node48 index nodes len =>
    if len ≤ 16 then do
      let newKeys := indexedEdges index
      -- A vector of edges and its capacity, sixteen slots, one push for each edge, a placeholder.
      if ← grantedAll (4 + newKeys.length + 2) then
        if 16 < newKeys.length then throw .panic
        else
          let newNodes := takeInOrder index newKeys nodes
          pure (some (.node16 newKeys
            ((newNodes ++ List.replicate (16 - newKeys.length) none).take len)))
      else pure none
    else pure none
  | .node256 nodes len =>
    if len ≤ 48 then do
      if ← grantedAll 6 then
        match compactNodes (List.range 256) nodes 0 (List.replicate 256 0)
            (List.replicate 48 none) with
        | .error error => throw error
        | .ok (index, compact) => pure (some (.node48 index compact len))
      else pure none
    else pure none
  | .node4 _ _ => pure none

/-- `Children::shrink_best_effort` (L647-761): every pass lowers the layout, so there
are three at most. -/
def shrinkBestEffort : ℕ → Children N → Effect ArtError Answers (Children N)
  | 0, c => pure c
  | passes + 1, c => do
    match ← shrinkStep c with
    | none => pure c
    | some c => shrinkBestEffort passes c

/-- `Children::remove` (L615-645). -/
def remove (c : Children N) (edge : UInt8) : Effect ArtError Answers (Option N × Children N) :=
  match c with
  | .node4 keys nodes =>
    match searchEdge keys edge with
    | .error _ => pure (none, c)
    | .ok slot => do
      if nodes.length ≤ slot then throw .panic
      let c ← shrinkBestEffort 3 (.node4 (keys.eraseIdx slot) (nodes.eraseIdx slot))
      pure ((nodes[slot]?).join, c)
  | .node16 keys nodes =>
    match searchEdge keys edge with
    | .error _ => pure (none, c)
    | .ok slot => do
      if nodes.length ≤ slot then throw .panic
      let c ← shrinkBestEffort 3 (.node16 (keys.eraseIdx slot) (nodes.eraseIdx slot))
      pure ((nodes[slot]?).join, c)
  | .node48 index nodes len =>
    match index[edge.toNat]? with
    | none => pure (none, c)
    | some encoded =>
      if encoded = 0 then pure (none, c)
      else do
        let slot := encoded.toNat - 1
        let index := index.set edge.toNat 0
        if nodes.length ≤ slot then pure (none, .node48 index nodes (len - 1))
        else do
          let c ← shrinkBestEffort 3 (.node48 index (nodes.set slot none) (len - 1))
          pure ((nodes[slot]?).join, c)
  | .node256 nodes len =>
    match (nodes[edge.toNat]?).join with
    | none => pure (none, c)
    | some node => do
      let c ← shrinkBestEffort 3 (.node256 (nodes.set edge.toNat none) (len - 1))
      pure (some node, c)

/-- `Children::take_only_child` (L763-770). -/
def takeOnlyChild (c : Children N) : Effect ArtError Answers (Option (UInt8 × N) × Children N) :=
  match c.onlyChildRef with
  | none => pure (none, c)
  | some (edge, _) => do
    let (removed, c) ← c.remove edge
    pure (removed.map fun node => (edge, node), c)

end Children

end FrankenGraph.Art

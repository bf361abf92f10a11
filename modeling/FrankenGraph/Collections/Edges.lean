import FrankenGraph.Collections.Children

/-!
# What the children stand for

All four layouts stand for one partial map from bytes to nodes. `Holds` says so, and the reads agree
with the map.

Results:
* `Holds.get_eq`, `Holds.len_eq`, `Holds.edgeAt_eq`: the reads
-/

namespace FrankenGraph.Art

open List Option Function

variable {N : Type}

/-! ## The edges of a map in order -/

/-- All bytes in order. -/
def allEdges : List UInt8 := (List.range 256).map UInt8.ofNat

/-- The edges of a map and their nodes, in byte order. -/
def edgesAmong (f : UInt8 → Option N) (edges : List UInt8) : List (UInt8 × N) :=
  edges.filterMap fun edge => (f edge).map fun node => (edge, node)

/-- The edges of a map. -/
def edgesOf (f : UInt8 → Option N) : List (UInt8 × N) := edgesAmong f allEdges

/-- The bytes below an edge. -/
def below (edge : UInt8) : List UInt8 := (List.range edge.toNat).map UInt8.ofNat

/-- The bytes above an edge. -/
def above (edge : UInt8) : List UInt8 :=
  (List.range' (edge.toNat + 1) (255 - edge.toNat)).map UInt8.ofNat

theorem toNat_ofNat_lt {n : ℕ} (h : n < 256) : (UInt8.ofNat n).toNat = n := by
  rw [UInt8.toNat_ofNat']
  omega

theorem edge_lt (edge : UInt8) : edge.toNat < 256 := UInt8.toNat_lt edge

theorem allEdges_split (edge : UInt8) : allEdges = below edge ++ edge :: above edge := by
  have hlt := edge_lt edge
  have hrange : range 256 =
      range edge.toNat ++ edge.toNat :: range' (edge.toNat + 1) (255 - edge.toNat) := by
    have hsum : 256 = edge.toNat + (255 - edge.toNat + 1) := by omega
    rw [range_eq_range', range_eq_range', ← range'_succ]
    nth_rewrite 1 [hsum]
    rw [← range'_append_1, Nat.zero_add]
  rw [allEdges, hrange, map_append, map_cons, UInt8.ofNat_toNat]
  rfl

variable {edge x : UInt8}

theorem lt_of_mem_below (h : x ∈ below edge) : x < edge := by
  obtain ⟨n, hn, rfl⟩ := mem_map.mp h
  have hlt := edge_lt edge
  rw [mem_range] at hn
  rw [UInt8.lt_iff_toNat_lt, toNat_ofNat_lt (by omega)]
  exact hn

theorem lt_of_mem_above (h : x ∈ above edge) : edge < x := by
  obtain ⟨n, hn, rfl⟩ := mem_map.mp h
  have hlt := edge_lt edge
  rw [mem_range'_1] at hn
  rw [UInt8.lt_iff_toNat_lt, toNat_ofNat_lt (by omega)]
  omega

theorem mem_allEdges (edge : UInt8) : edge ∈ allEdges := by
  rw [allEdges_split edge]
  simp

theorem pairwise_allEdges : allEdges.Pairwise (· < ·) := by
  refine pairwise_map.mpr ?_
  refine List.Pairwise.imp_of_mem ?_ pairwise_lt_range
  intro a b ha hb hab
  rw [mem_range] at ha hb
  rw [UInt8.lt_iff_toNat_lt, toNat_ofNat_lt ha, toNat_ofNat_lt hb]
  exact hab

/-- The edges around one edge. -/
theorem edgesOf_split (f : UInt8 → Option N) (edge : UInt8) :
    edgesOf f = edgesAmong f (below edge) ++
      (((f edge).map fun node => (edge, node)).toList ++ edgesAmong f (above edge)) := by
  rw [edgesOf, allEdges_split edge, edgesAmong, filterMap_append, filterMap_cons]
  cases f edge <;> rfl

variable {f : UInt8 → Option N} {edges : List UInt8}

theorem edgesAmong_update (x : Option N)
    (h : edge ∉ edges) : edgesAmong (update f edge x) edges = edgesAmong f edges := by
  refine filterMap_congr fun e he => ?_
  have hne : e ≠ edge := fun heq => h (heq ▸ he)
  rw [update_of_ne hne]

theorem notMem_below (edge : UInt8) : edge ∉ below edge :=
  fun h => Nat.lt_irrefl _ (UInt8.lt_iff_toNat_lt.mp (lt_of_mem_below h))

theorem notMem_above (edge : UInt8) : edge ∉ above edge :=
  fun h => Nat.lt_irrefl _ (UInt8.lt_iff_toNat_lt.mp (lt_of_mem_above h))

/-- The edges after an update of one edge. -/
theorem edgesOf_update (f : UInt8 → Option N) (edge : UInt8) (x : Option N) :
    edgesOf (update f edge x) = edgesAmong f (below edge) ++
      ((x.map fun node => (edge, node)).toList ++ edgesAmong f (above edge)) := by
  rw [edgesOf_split _ edge, edgesAmong_update x (notMem_below edge),
    edgesAmong_update x (notMem_above edge), update_self]

variable {node : N}

theorem mem_edgesAmong : (edge, node) ∈ edgesAmong f edges ↔ edge ∈ edges ∧ f edge = some node := by
  simp only [edgesAmong, mem_filterMap, map_eq_some_iff, Prod.mk.injEq]
  constructor
  · rintro ⟨e, he, n, hn, rfl, rfl⟩
    exact ⟨he, hn⟩
  · rintro ⟨he, hn⟩
    exact ⟨edge, he, node, hn, rfl, rfl⟩

theorem mem_edgesOf : (edge, node) ∈ edgesOf f ↔ f edge = some node := by
  rw [edgesOf, mem_edgesAmong]
  exact ⟨fun h => h.2, fun h => ⟨mem_allEdges edge, h⟩⟩

/-- The edges of a map are in strict order. -/
theorem pairwise_edgesOf (f : UInt8 → Option N) : (edgesOf f).Pairwise fun a b => a.1 < b.1 := by
  refine List.Pairwise.filterMap _ ?_ pairwise_allEdges
  intro a a' hlt b hb b' hb'
  obtain ⟨n, -, rfl⟩ := map_eq_some_iff.mp hb
  obtain ⟨n', -, rfl⟩ := map_eq_some_iff.mp hb'
  exact hlt

/-! ## Layouts -/

/-- `index` and `nodes` of a Node48: every edge of the map has a slot of its own, and no other slot is
taken. -/
structure Indexed (index : List UInt8) (nodes : List (Option N)) (f : UInt8 → Option N)
    (slot : UInt8 → ℕ) : Prop where
  index_length : index.length = 256
  nodes_length : nodes.length = 48
  vacant : ∀ edge, f edge = none → index[edge.toNat]? = some 0
  taken : ∀ edge node, f edge = some node → slot edge < 48 ∧
    index[edge.toNat]? = some (encodeNode48Slot (slot edge)) ∧
    nodes[slot edge]? = some (some node)
  own : ∀ edge edge', f edge ≠ none → f edge' ≠ none → slot edge = slot edge' → edge = edge'
  covered : ∀ s < 48, (∃ edge, f edge ≠ none ∧ slot edge = s) ∨ nodes[s]? = some none

/-- The layout stands for the map. -/
def Children.Holds : Children N → (UInt8 → Option N) → Prop
  | .node4 keys nodes, f =>
    keys = (edgesOf f).map Prod.fst ∧ nodes = (edgesOf f).map (fun e => some e.2) ∧
      (edgesOf f).length ≤ 4
  | .node16 keys nodes, f =>
    keys = (edgesOf f).map Prod.fst ∧ nodes = (edgesOf f).map (fun e => some e.2) ∧
      (edgesOf f).length ≤ 16
  | .node48 index nodes len, f => len = (edgesOf f).length ∧ ∃ slot, Indexed index nodes f slot
  | .node256 nodes len, f =>
    len = (edgesOf f).length ∧ nodes.length = 256 ∧ ∀ edge : UInt8, nodes[edge.toNat]? = some (f edge)

theorem encode_ne_zero {slot : ℕ} (h : slot < 48) : encodeNode48Slot slot ≠ 0 := by
  intro heq
  have := congrArg UInt8.toNat heq
  rw [encodeNode48Slot, UInt8.toNat_add, UInt8.toNat_ofNat'] at this
  simp at this
  omega

theorem decode_encode {slot : ℕ} (h : slot < 48) : (encodeNode48Slot slot).toNat - 1 = slot := by
  rw [encodeNode48Slot, UInt8.toNat_add, UInt8.toNat_ofNat']
  simp
  omega

theorem compare_below (h : x ∈ below edge) : compare x edge = .lt :=
  if_pos (lt_of_mem_below h)

theorem compare_above (h : x ∈ above edge) : compare x edge = .gt := by
  have hlt := UInt8.lt_iff_toNat_lt.mp (lt_of_mem_above h)
  have hnot : ¬ x < edge := fun h' => by
    have := UInt8.lt_iff_toNat_lt.mp h'
    omega
  have hne : x ≠ edge := by
    rintro rfl
    omega
  exact (if_neg hnot).trans (if_neg hne)

theorem compare_self (edge : UInt8) : compare edge edge = .eq :=
  (if_neg (UInt8.lt_irrefl edge)).trans (if_pos rfl)

theorem fst_mem_of_mem_edgesAmong (h : x ∈ (edgesAmong f edges).map Prod.fst) : x ∈ edges := by
  obtain ⟨⟨e, n⟩, he, rfl⟩ := mem_map.mp h
  exact (mem_edgesAmong.mp he).1

/-- An edge of the map is found at its place among the edges. -/
theorem searchEdge_found (h : f edge = some node) :
    searchEdge ((edgesOf f).map Prod.fst) edge = .ok (edgesAmong f (below edge)).length := by
  rw [edgesOf_split f edge, h]
  simp only [map_some, toList_some, map_append, map_cons, singleton_append]
  rw [searchEdge, binarySearchBy_found, length_map]
  · exact fun x hx => compare_below (fst_mem_of_mem_edgesAmong hx)
  · exact compare_self edge
  · exact fun x hx => compare_above (fst_mem_of_mem_edgesAmong hx)

/-- A missing edge is searched to where it belongs. -/
theorem searchEdge_missing (h : f edge = none) :
    searchEdge ((edgesOf f).map Prod.fst) edge = .error (edgesAmong f (below edge)).length := by
  rw [edgesOf_split f edge, h]
  simp only [map_none, toList_none, nil_append, map_append]
  rw [searchEdge, binarySearchBy_missing, length_map]
  · exact fun x hx => compare_below (fst_mem_of_mem_edgesAmong hx)
  · exact fun x hx => compare_above (fst_mem_of_mem_edgesAmong hx)

/-- The node of an edge stands at its place among the nodes. -/
theorem getElem?_edgesOf (h : f edge = some node) :
    ((edgesOf f).map fun e => some e.2)[(edgesAmong f (below edge)).length]? = some (some node) := by
  rw [edgesOf_split f edge, h]
  simp

/-! ## Reads -/

namespace Children.Holds

variable {c : Children N} {f : UInt8 → Option N}

theorem get_pair {keys : List UInt8} {nodes : List (Option N)} (edge : UInt8)
    (hkeys : keys = (edgesOf f).map Prod.fst) (hnodes : nodes = (edgesOf f).map fun e => some e.2) :
    (match (searchEdge keys edge).toOption with
      | none => none
      | some slot => (nodes[slot]?).join) = f edge := by
  cases hf : f edge with
  | none =>
    rw [hkeys, searchEdge_missing hf]
    rfl
  | some node =>
    rw [hkeys, searchEdge_found hf, hnodes]
    simp only [Except.toOption]
    rw [getElem?_edgesOf hf]
    rfl

theorem get_eq (h : c.Holds f) (edge : UInt8) : c.get edge = f edge := by
  cases c with
  | node4 keys nodes | node16 keys nodes => exact get_pair edge h.1 h.2.1
  | node48 index nodes len =>
    obtain ⟨-, slot, hslot⟩ := h
    cases hf : f edge with
    | none => simp [Children.get, Children.slotOf, hslot.vacant edge hf]
    | some node =>
      obtain ⟨hlt, hindex, hnode⟩ := hslot.taken edge node hf
      simp [Children.get, Children.slotOf, Children.nodes, hindex, encode_ne_zero hlt,
        decode_encode hlt, hnode]
  | node256 nodes len =>
    simp [Children.get, Children.slotOf, Children.nodes, h.2.2 edge]

theorem len_eq (h : c.Holds f) : c.len = (edgesOf f).length := by
  cases c with
  | node4 keys nodes => simp [Children.len, h.1]
  | node16 keys nodes => simp [Children.len, h.1]
  | node48 index nodes len => exact h.1
  | node256 nodes len => exact h.1

theorem edgeAt_pair {keys : List UInt8} {nodes : List (Option N)} (ordinal : ℕ)
    (hkeys : keys = (edgesOf f).map Prod.fst) (hnodes : nodes = (edgesOf f).map fun e => some e.2) :
    (do
      let key ← keys[ordinal]?
      let node ← (nodes[ordinal]?).join
      some (key, node)) = (edgesOf f)[ordinal]? := by
  rw [hkeys, hnodes, getElem?_map, getElem?_map]
  cases (edgesOf f)[ordinal]? <;> rfl

/-- The scan of the wide layouts gives the edges that are not vacant. -/
theorem scan_eq {α : Type} {found : ℕ → Option (Option α)} {g : ℕ → Option α} (edges : List ℕ) :
    (∀ edge ∈ edges, found edge = some (g edge)) → ∀ ordinal, Children.scan found edges ordinal =
        (edges.filterMap fun edge => (g edge).map fun a => (edge, a))[ordinal]? := by
  induction edges with
  | nil =>
    intro _ ordinal
    rfl
  | cons edge edges ih =>
    intro hfound ordinal
    have hrest := ih fun e he => hfound e (mem_cons_of_mem _ he)
    rw [Children.scan, hfound edge mem_cons_self]
    cases hg : g edge with
    | none => simp [hrest, hg]
    | some a =>
      cases ordinal with
      | zero => simp [hg]
      | succ ordinal => simp [hrest, hg]

/-- The edges of a map, read along the numbers of the bytes. -/
theorem filterMap_range {α : Type} (f : UInt8 → Option N) (value : UInt8 → N → α) :
    ((range 256).filterMap fun edge =>
        ((f (UInt8.ofNat edge)).map (value (UInt8.ofNat edge))).map fun a => (edge, a)) =
      (edgesOf f).map fun e => (e.1.toNat, value e.1 e.2) := by
  rw [edgesOf, edgesAmong, allEdges, filterMap_map, map_filterMap]
  refine filterMap_congr fun edge hedge => ?_
  rw [mem_range] at hedge
  cases hf : f (UInt8.ofNat edge) with
  | none => simp [hf]
  | some node => simp [hf, Nat.mod_eq_of_lt hedge]

theorem edgeAt_eq (h : c.Holds f) (ordinal : ℕ) : c.edgeAt ordinal = (edgesOf f)[ordinal]? := by
  cases c with
  | node4 keys nodes | node16 keys nodes => exact edgeAt_pair ordinal h.1 h.2.1
  | node48 index nodes len =>
    obtain ⟨-, slot, hslot⟩ := h
    have hfound : ∀ edge ∈ range 256, (index[edge]?.map fun s => if s ≠ 0 then some s else none) =
          some ((f (UInt8.ofNat edge)).map fun _ =>
            encodeNode48Slot (slot (UInt8.ofNat edge))) := by
      intro edge hedge
      rw [mem_range] at hedge
      cases hf : f (UInt8.ofNat edge) with
      | none =>
        have := hslot.vacant _ hf
        rw [toNat_ofNat_lt hedge] at this
        simp [this]
      | some node =>
        obtain ⟨hlt, hindex, -⟩ := hslot.taken _ node hf
        rw [toNat_ofNat_lt hedge] at hindex
        simp [hindex, encode_ne_zero hlt]
    rw [Children.edgeAt, scan_eq (range 256) hfound ordinal,
      filterMap_range f fun edge _ => encodeNode48Slot (slot edge), getElem?_map]
    cases hget : (edgesOf f)[ordinal]? with
    | none => rfl
    | some e =>
      obtain ⟨hlt, -, hnode⟩ := hslot.taken e.1 e.2 (mem_edgesOf.mp (mem_of_getElem? hget))
      simp [decode_encode hlt, hnode]
  | node256 nodes len =>
    have hfound : ∀ edge ∈ range 256, (some (nodes[edge]?).join : Option (Option N)) =
          some ((f (UInt8.ofNat edge)).map fun node => node) := by
      intro edge hedge
      rw [mem_range] at hedge
      have := h.2.2 (UInt8.ofNat edge)
      rw [toNat_ofNat_lt hedge] at this
      rw [this]
      simp
    rw [Children.edgeAt, scan_eq (range 256) hfound ordinal,
      filterMap_range f fun _ node => node, getElem?_map]
    cases (edgesOf f)[ordinal]? with
    | none => rfl
    | some e => simp

end Children.Holds

end FrankenGraph.Art

import FrankenGraph.Collections.EdgeWrites

/-!
# Insertion, growth, removal and demotion of children

Every change of the children is proved against the map from bytes to nodes: an insertion adds an edge
in whichever layout it ends, a refused one leaves the old map, and demotion keeps it.

Results:
* `Holds.tryInsert`: the map with a new edge, or the old map
* `Holds.shrinkBestEffort`: demotion keeps the map
* `Holds.remove`: the map without an edge
-/

namespace FrankenGraph.Art

open List Option Function Children

variable {N : Type}

namespace Children

/-- A refused request: the children still stand for the old map. -/
def Refused (f : UInt8 → Option N) (failure : ArtError × Children N) : Prop :=
  (∃ operation, failure.1 = .region operation) ∧ failure.2.Holds f

variable {ε : Type} {E : ε → Prop}

theorem tryReserve_outcome {error : ε} (h : E error) (additional : ℕ) :
    Outcome (tryReserve additional error) (fun _ => True) E := by
  unfold tryReserve
  split
  · exact .pure trivial
  · exact .request h

theorem tryEmpty_outcome {error : ArtError → ε} (h : ∀ operation, E (error (.region operation))) :
    Outcome (tryEmpty error : Effect ε Answers (Children N)) (fun c => c = empty) E := by
  refine .bind (.request (h _)) fun _ _ => ?_
  refine .bind (.request (h _)) fun _ _ => ?_
  exact .pure rfl

theorem tryFilled_outcome {α : Type} {error : ε} (h : E error) (count : ℕ) (value : α) :
    Outcome (tryFilled count value error) (fun l => l = replicate count value) E := by
  refine .bind (.request h) fun _ _ => ?_
  refine .bind (.request h) fun _ _ => ?_
  exact .pure rfl

variable {f : UInt8 → Option N} {edge : UInt8}

/-- A new edge has its place between the edges below and above it. -/
theorem map_insertIdx {β : Type} (g : UInt8 × N → β) (hedge : f edge = none) (node : N) :
    ((edgesOf f).map g).insertIdx (edgesAmong f (below edge)).length (g (edge, node)) =
      (edgesOf (update f edge (some node))).map g := by
  rw [edgesOf_insert, edgesOf_of_none hedge, map_append, map_append, map_cons]
  have := insertIdx_append ((edgesAmong f (below edge)).map g) ((edgesAmong f (above edge)).map g)
    (g (edge, node))
  rwa [length_map] at this

/-- The sorted vectors with a new edge, or the old ones again. -/
theorem tryInsertPair_outcome (hedge : f edge = none) (node : N)
    {self : List UInt8 → List (Option N) → Children N}
    (hself : (self ((edgesOf f).map Prod.fst) ((edgesOf f).map fun e => some e.2)).Holds f)
    (capacity : ℕ) (operation : String) :
    Outcome (tryInsertPair self ((edgesOf f).map Prod.fst) ((edgesOf f).map fun e => some e.2)
        capacity edge node operation)
      (fun pair => pair.1 = (edgesOf (update f edge (some node))).map Prod.fst ∧
        pair.2 = (edgesOf (update f edge (some node))).map fun e => some e.2)
      (Refused f) := by
  have hrefused : Refused f (.region operation,
      self ((edgesOf f).map Prod.fst) ((edgesOf f).map fun e => some e.2)) :=
    ⟨⟨operation, rfl⟩, hself⟩
  have hplace : (edgesAmong f (below edge)).length ≤ (edgesOf f).length := by
    rw [edgesOf_of_none hedge, length_append]
    omega
  have hback : (((edgesOf f).map Prod.fst).insertIdx (edgesAmong f (below edge)).length edge).eraseIdx
      (edgesAmong f (below edge)).length = (edgesOf f).map Prod.fst :=
    eraseIdx_insertIdx_self _
  unfold tryInsertPair
  simp only [searchEdge_missing hedge]
  refine .bind (tryReserve_outcome hrefused _) fun _ _ => ?_
  refine .bind (tryReserve_outcome hrefused _) fun _ _ => ?_
  rw [if_neg (by rw [length_map]; omega)]
  refine .bind (.request hrefused) fun _ _ => ?_
  rw [if_neg (by rw [length_map]; omega)]
  refine .bind (.request (by rw [hback]; exact hrefused)) fun _ _ => ?_
  exact .pure ⟨map_insertIdx Prod.fst hedge node, map_insertIdx (some ·.2) hedge node⟩

theorem tryGrow4To16_outcome (hedge : f edge = none) (node : N) (hlen : (edgesOf f).length ≤ 4) :
    Outcome (tryGrow4To16 ((edgesOf f).map Prod.fst) ((edgesOf f).map fun e => some e.2) edge node)
      (fun c => c.Holds (update f edge (some node))) (Refused f) := by
  have hself : (node4 ((edgesOf f).map Prod.fst) ((edgesOf f).map fun e => some e.2)).Holds
      f := ⟨rfl, rfl, hlen⟩
  refine .bind (tryEmpty_outcome fun operation => ⟨⟨operation, rfl⟩, hself⟩) fun _ _ => ?_
  refine .bind (tryInsertPair_outcome hedge node hself 16 _) fun pair hpair => ?_
  refine .pure ⟨hpair.1, hpair.2, ?_⟩
  rw [length_insert node hedge]
  omega

theorem tryGrow16To48_outcome (hedge : f edge = none) (node : N) (hlen : (edgesOf f).length ≤ 16) :
    Outcome (tryGrow16To48 ((edgesOf f).map Prod.fst) ((edgesOf f).map fun e => some e.2) edge node)
      (fun c => c.Holds (update f edge (some node))) (Refused f) := by
  have hself : ∀ operation, Refused f (.region operation,
      .node16 ((edgesOf f).map Prod.fst) ((edgesOf f).map fun e => some e.2)) :=
    fun operation => ⟨⟨operation, rfl⟩, rfl, rfl, hlen⟩
  obtain ⟨index, nodes, hfill, hindexed, hvacant⟩ := fillNode48_indexed f (by omega)
  refine .bind (tryFilled_outcome (hself _) 256 0) ?_
  rintro _ rfl
  refine .bind (tryFilled_outcome (hself _) 48 none) ?_
  rintro _ rfl
  refine .bind (tryEmpty_outcome fun operation => hself operation) fun _ _ => ?_
  rw [hfill]
  simp only [length_map]
  have hedge' := edge_lt edge
  rw [if_neg (by rw [hindexed.nodes_length]; omega), if_neg (by rw [hindexed.index_length]; omega)]
  have hinsert := hindexed.insert hedge (hvacant _ (by omega) (Nat.le_refl _)) node
  exact .pure ⟨(length_insert node hedge).symm, _, hinsert⟩

variable {index : List UInt8} {slot : UInt8 → ℕ}

/-- The loop of the promotion to Node256. -/
theorem fillNode256_spec (hvacant : ∀ edge, f edge = none → index[edge.toNat]? = some 0)
    (hindex : ∀ edge node, f edge = some node → slot edge < 48 ∧
      index[edge.toNat]? = some (encodeNode48Slot (slot edge)))
    (hown : ∀ edge edge', f edge ≠ none → f edge' ≠ none → slot edge = slot edge' → edge = edge')
    (edges : List ℕ) :
    ∀ nodes newNodes : List (Option N), newNodes.length = 256 → (∀ e ∈ edges, e < 256) →
      edges.Nodup →
      (∀ e ∈ edges, ∀ node, f (UInt8.ofNat e) = some node →
        nodes[slot (UInt8.ofNat e)]? = some (some node)) →
      (∀ e ∈ edges, newNodes[e]? = some none) →
      ∃ result, fillNode256 index edges nodes newNodes = .ok result ∧ result.length = 256 ∧
        (∀ e ∈ edges, result[e]? = some (f (UInt8.ofNat e))) ∧
        ∀ e, e ∉ edges → result[e]? = newNodes[e]? := by
  induction edges with
  | nil =>
    intro nodes newNodes hlen _ _ _ _
    exact ⟨newNodes, rfl, hlen, by simp, fun _ _ => rfl⟩
  | cons e edges ih =>
    intro nodes newNodes hlen hbound hnodup hnodes hempty
    rw [nodup_cons] at hnodup
    have he : e < 256 := hbound e mem_cons_self
    have hbound' : ∀ x ∈ edges, x < 256 := fun x hx => hbound x (mem_cons_of_mem _ hx)
    rw [fillNode256]
    cases hf : f (UInt8.ofNat e) with
    | none =>
      have hzero := hvacant _ hf
      rw [toNat_ofNat_lt he] at hzero
      obtain ⟨result, hfill, hlength, hin, hout⟩ := ih nodes newNodes hlen hbound' hnodup.2
        (fun x hx => hnodes x (mem_cons_of_mem _ hx))
        (fun x hx => hempty x (mem_cons_of_mem _ hx))
      refine ⟨result, by simpa [hzero] using hfill, hlength, ?_, ?_⟩
      · intro x hx
        rcases mem_cons.mp hx with rfl | hx
        · rw [hout x hnodup.1, hempty x mem_cons_self, hf]
        · exact hin x hx
      · intro x hx
        exact hout x fun h => hx (mem_cons_of_mem _ h)
    | some node =>
      obtain ⟨hlt, hcode⟩ := hindex _ node hf
      rw [toNat_ofNat_lt he] at hcode
      have hnode := hnodes e mem_cons_self node hf
      have hdistinct : ∀ x ∈ edges, ∀ n, f (UInt8.ofNat x) = some n →
          slot (UInt8.ofNat e) ≠ slot (UInt8.ofNat x) := by
        intro x hx n hn heq
        have hsame := hown _ _ (by simp [hf]) (by simp [hn]) heq
        have := congrArg UInt8.toNat hsame
        rw [toNat_ofNat_lt he, toNat_ofNat_lt (hbound' x hx)] at this
        exact hnodup.1 (this ▸ hx)
      have hnodes' : ∀ x ∈ edges, ∀ n, f (UInt8.ofNat x) = some n →
          (nodes.set (slot (UInt8.ofNat e)) none)[slot (UInt8.ofNat x)]? = some (some n) := by
        intro x hx n hn
        rw [getElem?_set_ne (hdistinct x hx n hn), hnodes x (mem_cons_of_mem _ hx) n hn]
      have hempty' : ∀ x ∈ edges, (newNodes.set e (some node))[x]? = some none := by
        intro x hx
        have hne : e ≠ x := fun heq => hnodup.1 (heq ▸ hx)
        rw [getElem?_set_ne hne, hempty x (mem_cons_of_mem _ hx)]
      obtain ⟨result, hfill, hlength, hin, hout⟩ :=
        ih _ (newNodes.set e (some node)) (by simpa using hlen) hbound' hnodup.2 hnodes' hempty'
      refine ⟨result, ?_, hlength, ?_, ?_⟩
      · simp only [hcode, if_neg (encode_ne_zero hlt), decode_encode hlt, hnode, join]
        simp only [bind_some, id]
        rw [if_neg (by omega)]
        exact hfill
      · intro x hx
        rcases mem_cons.mp hx with rfl | hx
        · rw [hout x hnodup.1, getElem?_set_self (by omega), hf]
        · exact hin x hx
      · intro x hx
        rw [mem_cons, not_or] at hx
        rw [hout x hx.2, getElem?_set_ne (Ne.symm hx.1)]

variable {nodes : List (Option N)} {len : ℕ}

theorem tryGrow48To256_outcome (hedge : f edge = none) (node : N)
    (h : (node48 index nodes len).Holds f) :
    Outcome (tryGrow48To256 index nodes len edge node)
      (fun c => c.Holds (update f edge (some node))) (Refused f) := by
  have hself : ∀ operation, Refused f (.region operation, .node48 index nodes len) :=
    fun operation => ⟨⟨operation, rfl⟩, h⟩
  obtain ⟨hlen, slot, hslot⟩ := h
  refine .bind (tryFilled_outcome (hself _) 256 none) ?_
  rintro _ rfl
  refine .bind (tryEmpty_outcome fun operation => hself operation) fun _ _ => ?_
  obtain ⟨result, hfill, hlength, hin, -⟩ := fillNode256_spec hslot.vacant
    (fun e n he => ⟨(hslot.taken e n he).1, (hslot.taken e n he).2.1⟩) hslot.own (range 256)
    nodes (replicate 256 none) length_replicate (fun e he => mem_range.mp he)
    nodup_range (fun e _ n hn => (hslot.taken _ n hn).2.2)
    (fun e he => by rw [getElem?_replicate, if_pos (mem_range.mp he)])
  rw [hfill]
  have hedge' := edge_lt edge
  simp only [hlength]
  rw [if_neg (by omega)]
  refine .pure ⟨by rw [length_insert node hedge, hlen], by simpa using hlength, fun e => ?_⟩
  refine getElem?_setEdge hlength (fun x => ?_) edge (some node) e
  have := hin x.toNat (mem_range.mpr (edge_lt x))
  rwa [UInt8.ofNat_toNat] at this

variable {c : Children N}

/-- A new edge: the map with it, or the old map when a request is refused. -/
theorem Holds.tryInsert (h : c.Holds f) (hedge : f edge = none) (node : N) :
    Outcome (c.tryInsert edge node) (fun c => c.Holds (update f edge (some node)))
      (Refused f) := by
  have hgrown := length_insert node hedge
  cases c with
  | node4 keys nodes =>
    have hself := h
    obtain ⟨rfl, rfl, hle⟩ := h
    simp only [tryInsert, length_map]
    split
    · refine .bind (tryInsertPair_outcome hedge node hself 4 _) fun pair hpair => ?_
      exact .pure ⟨hpair.1, hpair.2, by omega⟩
    · exact tryGrow4To16_outcome hedge node hle
  | node16 keys nodes =>
    have hself := h
    obtain ⟨rfl, rfl, hle⟩ := h
    simp only [tryInsert, length_map]
    split
    · refine .bind (tryInsertPair_outcome hedge node hself 16 _) fun pair hpair => ?_
      exact .pure ⟨hpair.1, hpair.2, by omega⟩
    · exact tryGrow16To48_outcome hedge node hle
  | node48 index nodes len =>
    rw [tryInsert]
    split
    · next hlt =>
      obtain ⟨hlen, slot, hslot⟩ := h
      obtain ⟨s, hfind, hs⟩ := hslot.exists_vacant (by omega)
      have hedge' := edge_lt edge
      simp only [hfind]
      rw [if_neg (by rw [hslot.index_length]; omega)]
      exact .pure ⟨by omega, _, hslot.insert hedge hs node⟩
    · exact tryGrow48To256_outcome hedge node h
  | node256 nodes len =>
    obtain ⟨hlen, hnodes, hall⟩ := h
    have hedge' := edge_lt edge
    rw [tryInsert, if_neg (by omega)]
    exact .pure ⟨by omega, by simpa using hnodes,
      fun e => getElem?_setEdge hnodes hall edge (some node) e⟩

/-! ## Removal -/

theorem grantedAll_outcome (count : ℕ) :
    Outcome (grantedAll count : Effect ε Answers Bool) (fun _ => True) E := by
  induction count with
  | zero => exact .pure trivial
  | succ count ih =>
    refine .bind Outcome.granted fun answer _ => ?_
    cases answer with
    | true => exact ih
    | false => exact .pure trivial

/-- The edges of an index are those of the map. -/
theorem indexedEdges_eq (h : Indexed index nodes f slot) :
    indexedEdges index = (edgesOf f).map Prod.fst := by
  rw [indexedEdges, edgesOf, edgesAmong, allEdges, List.filterMap_map, List.map_filterMap,
    ← List.filterMap_eq_filter, List.map_filterMap]
  refine List.filterMap_congr fun e he => ?_
  rw [List.mem_range] at he
  cases hf : f (UInt8.ofNat e) with
  | none =>
    have := h.vacant _ hf
    rw [toNat_ofNat_lt he] at this
    simp [hf, this, Option.guard]
  | some node =>
    obtain ⟨hlt, hcode, -⟩ := h.taken _ node hf
    rw [toNat_ofNat_lt he] at hcode
    simp [hf, hcode, Option.guard, encode_ne_zero hlt]

/-- Moved in the order of their edges, every child is found. -/
theorem takeInOrder_eq (edges : List (UInt8 × N)) : ∀ nodes : List (Option N),
      (∀ e ∈ edges, slot e.1 < 48 ∧ index[e.1.toNat]? = some (encodeNode48Slot (slot e.1)) ∧
        nodes[slot e.1]? = some (some e.2)) →
      edges.Pairwise (fun a b => slot a.1 ≠ slot b.1) →
      takeInOrder index (edges.map Prod.fst) nodes = edges.map fun e => some e.2 := by
  induction edges with
  | nil => intros; rfl
  | cons e edges ih =>
    intro nodes hall hdistinct
    rw [pairwise_cons] at hdistinct
    obtain ⟨hlt, hcode, hnode⟩ := hall e mem_cons_self
    rw [map_cons, map_cons, takeInOrder]
    simp only [hcode, getD_some, decode_encode hlt, hnode]
    rw [ih _ ?_ hdistinct.2]
    · rfl
    · intro x hx
      obtain ⟨hlt', hcode', hnode'⟩ := hall x (mem_cons_of_mem _ hx)
      refine ⟨hlt', hcode', ?_⟩
      rw [getElem?_set_ne (hdistinct.1 x hx), hnode']

/-- Compacting a Node256 is enumerating its edges into slots. -/
theorem compactNodes_eq (edges : List ℕ) :
    ∀ (nodes : List (Option N)) (s : ℕ) (index : List UInt8) (compact : List (Option N)),
      index.length = 256 → (∀ e ∈ edges, e < 256) → edges.Nodup →
      (∀ e ∈ edges, nodes[e]? = some (f (UInt8.ofNat e))) →
      s + (edgesAmong f (edges.map UInt8.ofNat)).length ≤ compact.length →
      compactNodes edges nodes s index compact =
        fillNode48 ((edgesAmong f (edges.map UInt8.ofNat)).map Prod.fst)
          ((edgesAmong f (edges.map UInt8.ofNat)).map fun e => some e.2) s index compact := by
  induction edges with
  | nil => intros; rfl
  | cons e edges ih =>
    intro nodes s index compact hindex hbound hnodup hnodes hroom
    rw [nodup_cons] at hnodup
    have he : e < 256 := hbound e mem_cons_self
    have hbound' : ∀ x ∈ edges, x < 256 := fun x hx => hbound x (mem_cons_of_mem _ hx)
    rw [compactNodes, hnodes e mem_cons_self]
    cases hf : f (UInt8.ofNat e) with
    | none =>
      have hskip : edgesAmong f ((e :: edges).map UInt8.ofNat) =
          edgesAmong f (edges.map UInt8.ofNat) := by simp [edgesAmong, hf]
      rw [hskip] at hroom ⊢
      exact ih nodes s index compact hindex hbound' hnodup.2
        (fun x hx => hnodes x (mem_cons_of_mem _ hx)) hroom
    | some node =>
      have htake : edgesAmong f ((e :: edges).map UInt8.ofNat) =
          (UInt8.ofNat e, node) :: edgesAmong f (edges.map UInt8.ofNat) := by simp [edgesAmong, hf]
      rw [htake, length_cons] at hroom
      rw [htake, map_cons, map_cons, fillNode48, toNat_ofNat_lt he, if_neg (by omega),
        if_neg (by omega)]
      simp only [join, bind_some, id]
      rw [if_neg (by omega)]
      refine ih _ (s + 1) _ _ (by simpa using hindex) hbound' hnodup.2 ?_
        (by rw [length_set]; omega)
      intro x hx
      have hne : e ≠ x := fun heq => hnodup.1 (heq ▸ hx)
      rw [getElem?_set_ne hne, hnodes x (mem_cons_of_mem _ hx)]

/-- The Node16 a small Node48 is demoted to. -/
theorem Holds.demote48 (h : (node48 index nodes len).Holds f) (hle : len ≤ 16) :
    ¬ 16 < (indexedEdges index).length ∧
      (node16 (indexedEdges index) ((takeInOrder index (indexedEdges index) nodes ++
        replicate (16 - (indexedEdges index).length) none).take len)).Holds f := by
  obtain ⟨hlen, slot, hslot⟩ := h
  have hkeys := indexedEdges_eq hslot
  have hnodes : takeInOrder index (indexedEdges index) nodes =
      (edgesOf f).map fun e => some e.2 := by
    rw [hkeys]
    refine takeInOrder_eq (edgesOf f) nodes (fun e he => hslot.taken e.1 e.2 (mem_edgesOf.mp he)) ?_
    refine (pairwise_map.mp (nodup_keys f)).imp_of_mem ?_
    intro a b ha hb hne heq
    exact hne (hslot.own a.1 b.1 (by simp [mem_edgesOf.mp ha]) (by simp [mem_edgesOf.mp hb]) heq)
  rw [hnodes, hkeys, length_map]
  refine ⟨by omega, rfl, ?_, by omega⟩
  rw [take_left' (by rw [length_map, hlen])]

/-- The Node48 a small Node256 is demoted to. -/
theorem Holds.demote256 (h : (node256 nodes len).Holds f) (hle : len ≤ 48) :
    ∃ index compact, compactNodes (range 256) nodes 0 (replicate 256 0)
        (replicate 48 none) = .ok (index, compact) ∧
      (node48 index compact len).Holds f := by
  obtain ⟨hlen, hnodes, hall⟩ := h
  obtain ⟨index, compact, hfill, hindexed, -⟩ := fillNode48_indexed f (by omega)
  have hsame : edgesAmong f ((range 256).map UInt8.ofNat) = edgesOf f := rfl
  have hpresent : ∀ e ∈ range 256, nodes[e]? = some (f (UInt8.ofNat e)) := by
    intro e he
    have := hall (UInt8.ofNat e)
    rwa [toNat_ofNat_lt (mem_range.mp he)] at this
  have hcompact := compactNodes_eq (range 256) nodes 0 (replicate 256 0)
    (replicate 48 none) length_replicate (fun e he => mem_range.mp he)
    nodup_range hpresent (by rw [hsame, length_replicate]; omega)
  rw [hsame, hfill] at hcompact
  exact ⟨index, compact, hcompact, hlen, _, hindexed⟩

/-- A demotion keeps the map. -/
theorem Holds.shrinkStep (h : c.Holds f) :
    Outcome c.shrinkStep (fun result => ∀ c', result = some c' → c'.Holds f) (fun _ => False) := by
  cases c with
  | node4 keys nodes => exact .pure fun _ h => nomatch h
  | node16 keys nodes =>
    rw [shrinkStep]
    split
    · next hfour =>
      refine .bind (grantedAll_outcome 2) fun answer _ => ?_
      cases answer with
      | true =>
        refine .pure fun c' hc' => ?_
        cases hc'
        obtain ⟨rfl, rfl, -⟩ := h
        exact ⟨rfl, rfl, by simpa using hfour⟩
      | false => exact .pure fun _ h => nomatch h
    · exact .pure fun _ h => nomatch h
  | node48 index nodes len =>
    rw [shrinkStep]
    split
    · next hle =>
      refine .bind (grantedAll_outcome _) fun answer _ => ?_
      cases answer with
      | false => exact .pure fun _ h => nomatch h
      | true =>
        obtain ⟨hfew, hholds⟩ := h.demote48 hle
        simp only [if_true, if_neg hfew]
        refine .pure fun c' hc' => ?_
        cases hc'
        exact hholds
    · exact .pure fun _ h => nomatch h
  | node256 nodes len =>
    rw [shrinkStep]
    split
    · next hle =>
      refine .bind (grantedAll_outcome 6) fun answer _ => ?_
      cases answer with
      | false => exact .pure fun _ h => nomatch h
      | true =>
        obtain ⟨index, compact, hcompact, hholds⟩ := h.demote256 hle
        simp only [hcompact, if_true]
        refine .pure fun c' hc' => ?_
        cases hc'
        exact hholds
    · exact .pure fun _ h => nomatch h

theorem Holds.shrinkBestEffort (passes : ℕ) : ∀ {c : Children N}, c.Holds f →
      Outcome (shrinkBestEffort passes c) (fun c' => c'.Holds f) (fun _ => False) := by
  induction passes with
  | zero =>
    intro c h
    exact .pure h
  | succ passes ih =>
    intro c h
    refine .bind h.shrinkStep fun result hresult => ?_
    cases result with
    | none => exact .pure h
    | some c' => exact ih (hresult c' rfl)

/-- The sorted vectors without an edge. -/
theorem erase_pair {node : N} (h : f edge = some node) :
    ((edgesOf f).map Prod.fst).eraseIdx (edgesAmong f (below edge)).length =
        (edgesOf (update f edge none)).map Prod.fst ∧
      ((edgesOf f).map fun e => some e.2).eraseIdx (edgesAmong f (below edge)).length =
        (edgesOf (update f edge none)).map fun e => some e.2 := by
  have hmap : ∀ {β : Type} (g : UInt8 × N → β), ((edgesOf f).map g).eraseIdx
      (edgesAmong f (below edge)).length = (edgesOf (update f edge none)).map g := fun g => by
    rw [edgesOf_erase, edgesOf_of_some h, map_append, map_append, map_cons]
    have := eraseIdx_append ((edgesAmong f (below edge)).map g) ((edgesAmong f (above edge)).map g)
      (g (edge, node))
    rwa [length_map] at this
  exact ⟨hmap Prod.fst, hmap (some ·.2)⟩

/-- A removal: nothing for an absent edge, otherwise the layout without the edge, then demoted. -/
theorem Holds.remove_cases (h : c.Holds f) (edge : UInt8) :
    (f edge = none ∧ c.remove edge = pure (none, c)) ∨
    ∃ node c', f edge = some node ∧ c'.Holds (Function.update f edge none) ∧
      c.remove edge = (Children.shrinkBestEffort 3 c' >>= fun c => pure (some node, c)) := by
  cases hf : f edge with
  | none =>
    refine Or.inl ⟨rfl, ?_⟩
    cases c with
    | node4 keys nodes | node16 keys nodes =>
      obtain ⟨rfl, rfl, -⟩ := h
      rw [Children.remove, searchEdge_missing hf]
    | node48 index nodes len =>
      obtain ⟨-, slot, hslot⟩ := h
      rw [Children.remove, hslot.vacant edge hf]
      rfl
    | node256 nodes len =>
      rw [Children.remove, h.2.2 edge, hf]
      rfl
  | some node =>
    have hlength : (edgesOf (Function.update f edge none)).length + 1 = (edgesOf f).length :=
      length_erase (by simp [hf])
    refine Or.inr ⟨node, ?_⟩
    cases c with
    | node4 keys nodes | node16 keys nodes =>
      obtain ⟨rfl, rfl, hle⟩ := h
      have hget := getElem?_edgesOf hf
      have hlt := (List.getElem?_eq_some_iff.mp hget).1
      rw [Children.remove, searchEdge_found hf]
      simp only [if_neg (Nat.not_le.mpr hlt), hget]
      refine ⟨_, trivial, ?_, rfl⟩
      exact ⟨(erase_pair hf).1, (erase_pair hf).2, by omega⟩
    | node48 index nodes len =>
      obtain ⟨hlen, slot, hslot⟩ := h
      obtain ⟨hlt, hcode, hnode⟩ := hslot.taken edge node hf
      refine ⟨.node48 _ _ (len - 1), rfl, ⟨by omega, slot, hslot.erase (by simp [hf])⟩, ?_⟩
      rw [Children.remove, hcode]
      simp only [if_neg (encode_ne_zero hlt), decode_encode hlt, hslot.nodes_length,
        if_neg (Nat.not_le.mpr hlt), hnode]
      rfl
    | node256 nodes len =>
      obtain ⟨hlen, hnodes, hall⟩ := h
      refine ⟨.node256 _ (len - 1), rfl, ⟨by omega, by simpa using hnodes,
        fun e => getElem?_setEdge hnodes hall edge none e⟩, ?_⟩
      rw [Children.remove, hall edge, hf]
      rfl

/-- An edge less, in whatever layout is granted; an absent edge changes nothing. -/
theorem Holds.remove (h : c.Holds f) (edge : UInt8) : Outcome (c.remove edge)
      (fun result => result.1 = f edge ∧ result.2.Holds (update f edge none))
      (fun _ => False) := by
  obtain ⟨hf, hremove⟩ | ⟨node, c', hf, hholds, hremove⟩ := h.remove_cases edge
  · rw [hremove, hf]
    refine .pure ⟨rfl, ?_⟩
    rwa [← hf, update_eq_self]
  · rw [hremove, hf]
    refine .bind (Holds.shrinkBestEffort 3 hholds) fun c'' hc'' => ?_
    exact .pure ⟨rfl, hc''⟩

end Children

end FrankenGraph.Art

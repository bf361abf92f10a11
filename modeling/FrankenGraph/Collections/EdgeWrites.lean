import FrankenGraph.Collections.Edges

/-!
# Writing the children

Insertion, growth, removal and demotion against the map the children stand for. The loops that move
children between layouts are reduced to one, `fillNode48`, which enumerates edges into slots.

Results:
* `Holds.put`: a write through `get_mut`
* `Holds.tryInsert`: a new edge, or the old map when a request is refused
* `Holds.remove`, `Holds.takeOnlyChild`: an edge less, in whatever layout is granted
-/

namespace FrankenGraph.Art

open List Option Function

variable {N : Type}

/-! ## Lists around one place -/

variable {α : Type}

theorem insertIdx_append (l r : List α) (x : α) : (l ++ r).insertIdx l.length x = l ++ x :: r := by
  induction l with
  | nil => simp
  | cons a l ih => simp [ih]

theorem eraseIdx_append (l r : List α) (x : α) : (l ++ x :: r).eraseIdx l.length = l ++ r := by
  induction l with
  | nil => simp
  | cons a l ih => simp [ih]

theorem set_append_length (l r : List α) (x y : α) :
    (l ++ x :: r).set l.length y = l ++ y :: r := by
  induction l with
  | nil => simp
  | cons a l ih => simp [ih]

variable {f : UInt8 → Option N} {edge : UInt8}

theorem edgesOf_of_some {node : N} (h : f edge = some node) :
    edgesOf f = edgesAmong f (below edge) ++ (edge, node) :: edgesAmong f (above edge) := by
  rw [edgesOf_split f edge, h]
  rfl

theorem edgesOf_of_none (h : f edge = none) :
    edgesOf f = edgesAmong f (below edge) ++ edgesAmong f (above edge) := by
  rw [edgesOf_split f edge, h]
  rfl

theorem edgesOf_insert (f : UInt8 → Option N) (edge : UInt8) (node : N) :
    edgesOf (update f edge (some node)) =
      edgesAmong f (below edge) ++ (edge, node) :: edgesAmong f (above edge) :=
  edgesOf_update f edge (some node)

theorem edgesOf_erase (f : UInt8 → Option N) (edge : UInt8) : edgesOf (update f edge none) =
      edgesAmong f (below edge) ++ edgesAmong f (above edge) :=
  edgesOf_update f edge none

theorem length_insert (node : N) (h : f edge = none) :
    (edgesOf (update f edge (some node))).length = (edgesOf f).length + 1 := by
  rw [edgesOf_insert, edgesOf_of_none h]
  simp
  omega

theorem length_put (node : N) (h : f edge ≠ none) :
    (edgesOf (update f edge (some node))).length = (edgesOf f).length := by
  obtain ⟨old, hold⟩ := ne_none_iff_exists'.mp h
  rw [edgesOf_insert, edgesOf_of_some hold]
  simp

theorem length_erase (h : f edge ≠ none) :
    (edgesOf (update f edge none)).length + 1 = (edgesOf f).length := by
  obtain ⟨old, hold⟩ := ne_none_iff_exists'.mp h
  rw [edgesOf_erase, edgesOf_of_some hold]
  simp
  omega

/-! ## Slots of a Node48 -/

namespace Indexed

variable {index : List UInt8} {nodes : List (Option N)} {f : UInt8 → Option N} {slot : UInt8 → ℕ}

variable {edge : UInt8}

theorem toNat_ne {edge' : UInt8} (h : edge ≠ edge') : edge.toNat ≠ edge'.toNat :=
  fun heq => h (UInt8.toNat_inj.mp heq)

theorem update_ne_none {e : UInt8} {x : Option N} (hne : e ≠ edge)
    (h : update f edge x e ≠ none) : f e ≠ none := by
  rwa [update_of_ne hne] at h

variable (h : Indexed index nodes f slot)
include h

/-- Another node at an edge of the map. -/
theorem put (hedge : f edge ≠ none) (node : N) :
    Indexed index (nodes.set (slot edge) (some node)) (update f edge (some node)) slot := by
  obtain ⟨old, hold⟩ := ne_none_iff_exists'.mp hedge
  have hsome : ∀ e, update f edge (some node) e ≠ none ↔ f e ≠ none := by
    intro e
    by_cases he : e = edge
    · subst he
      simp [hedge]
    · rw [update_of_ne he]
  refine ⟨h.index_length, by simpa using h.nodes_length, ?_, ?_, ?_, ?_⟩
  · intro e he
    exact h.vacant e (not_not.mp fun hne => (hsome e).mpr hne he)
  · intro e n he
    by_cases heq : e = edge
    · subst heq
      rw [update_self, some.injEq] at he
      obtain ⟨hlt, hindex, -⟩ := h.taken e old hold
      refine ⟨hlt, hindex, ?_⟩
      rw [getElem?_set_self (by rw [h.nodes_length]; exact hlt), he]
    · rw [update_of_ne heq] at he
      obtain ⟨hlt, hindex, hnode⟩ := h.taken e n he
      refine ⟨hlt, hindex, ?_⟩
      rw [getElem?_set_ne, hnode]
      exact fun hslot => heq (h.own edge e hedge (by simp [he]) hslot).symm
  · intro e e' he he'
    exact h.own e e' ((hsome e).mp he) ((hsome e').mp he')
  · intro s hs
    obtain ⟨e, he, heq⟩ | hvacant := h.covered s hs
    · exact Or.inl ⟨e, (hsome e).mpr he, heq⟩
    · right
      rw [getElem?_set_ne, hvacant]
      rintro rfl
      rw [(h.taken edge old hold).2.2] at hvacant
      simp at hvacant

/-- A new edge in a vacant slot. -/
theorem insert (hedge : f edge = none) {s : ℕ} (hs : nodes[s]? = some none) (node : N) :
    Indexed (index.set edge.toNat (encodeNode48Slot s)) (nodes.set s (some node))
      (Function.update f edge (some node)) (Function.update slot edge s) := by
  have hlt : s < 48 := by
    rw [← h.nodes_length]
    exact (List.getElem?_eq_some_iff.mp hs).1
  have hfree : ∀ e, f e ≠ none → slot e ≠ s := by
    intro e he heq
    obtain ⟨n, hn⟩ := Option.ne_none_iff_exists'.mp he
    have := (h.taken e n hn).2.2
    rw [heq, hs] at this
    simp at this
  refine ⟨by simpa using h.index_length, by simpa using h.nodes_length, ?_, ?_, ?_, ?_⟩
  · intro e he
    have hne : e ≠ edge := by
      rintro rfl
      simp at he
    rw [Function.update_of_ne hne] at he
    rw [List.getElem?_set_ne (toNat_ne hne).symm, h.vacant e he]
  · intro e n he
    by_cases heq : e = edge
    · subst heq
      rw [Function.update_self, Option.some.injEq] at he
      rw [Function.update_self]
      refine ⟨hlt, ?_, ?_⟩
      · exact List.getElem?_set_self (by rw [h.index_length]; exact edge_lt e)
      · rw [List.getElem?_set_self (by rw [h.nodes_length]; exact hlt), he]
    · rw [Function.update_of_ne heq] at he ⊢
      obtain ⟨hslot, hindex, hnode⟩ := h.taken e n he
      refine ⟨hslot, ?_, ?_⟩
      · rw [List.getElem?_set_ne (toNat_ne heq).symm, hindex]
      · rw [List.getElem?_set_ne (hfree e (by simp [he])).symm, hnode]
  · intro e e' he he' hslot
    by_cases heq : e = edge <;> by_cases heq' : e' = edge
    · rw [heq, heq']
    · rw [heq, Function.update_self, Function.update_of_ne heq'] at hslot
      exact absurd hslot.symm (hfree e' (update_ne_none heq' he'))
    · rw [heq', Function.update_self, Function.update_of_ne heq] at hslot
      exact absurd hslot (hfree e (update_ne_none heq he))
    · rw [Function.update_of_ne heq, Function.update_of_ne heq'] at hslot
      exact h.own e e' (update_ne_none heq he) (update_ne_none heq' he') hslot
  · intro t ht
    by_cases heq : t = s
    · exact Or.inl ⟨edge, by simp, by rw [Function.update_self, heq]⟩
    · obtain ⟨e, he, hslot⟩ | hvacant := h.covered t ht
      · have hne : e ≠ edge := by
          rintro rfl
          exact he hedge
        exact Or.inl ⟨e, by rwa [Function.update_of_ne hne], by rwa [Function.update_of_ne hne]⟩
      · right
        rw [List.getElem?_set_ne (Ne.symm heq), hvacant]

/-- An edge taken out of its slot. -/
theorem erase (hedge : f edge ≠ none) :
    Indexed (index.set edge.toNat 0) (nodes.set (slot edge) none) (update f edge none)
      slot := by
  obtain ⟨old, hold⟩ := ne_none_iff_exists'.mp hedge
  refine ⟨by simpa using h.index_length, by simpa using h.nodes_length, ?_, ?_, ?_, ?_⟩
  · intro e he
    by_cases heq : e = edge
    · subst heq
      exact getElem?_set_self (by rw [h.index_length]; exact edge_lt e)
    · rw [update_of_ne heq] at he
      rw [getElem?_set_ne (toNat_ne heq).symm, h.vacant e he]
  · intro e n he
    have heq : e ≠ edge := by
      rintro rfl
      simp at he
    rw [update_of_ne heq] at he
    obtain ⟨hslot, hindex, hnode⟩ := h.taken e n he
    refine ⟨hslot, ?_, ?_⟩
    · rw [getElem?_set_ne (toNat_ne heq).symm, hindex]
    · rw [getElem?_set_ne, hnode]
      exact fun hsame => heq (h.own edge e hedge (by simp [he]) hsame).symm
  · intro e e' he he'
    have hne : ∀ x, update f edge none x ≠ none → x ≠ edge := by
      rintro x hx rfl
      simp at hx
    exact h.own e e' (update_ne_none (hne e he) he) (update_ne_none (hne e' he') he')
  · intro s hs
    by_cases heq : s = slot edge
    · right
      rw [heq, getElem?_set_self]
      rw [h.nodes_length]
      exact (h.taken edge old hold).1
    · obtain ⟨e, he, hslot⟩ | hvacant := h.covered s hs
      · have hne : e ≠ edge := by
          rintro rfl
          exact heq hslot.symm
        exact Or.inl ⟨e, by rwa [update_of_ne hne], hslot⟩
      · right
        rw [getElem?_set_ne (Ne.symm heq), hvacant]

/-- With fewer than 48 edges a slot is vacant. -/
theorem exists_vacant (hlen : (edgesOf f).length < 48) :
    ∃ s, nodes.findIdx? isNone = some s ∧ nodes[s]? = some none := by
  cases hfind : nodes.findIdx? isNone with
  | some s =>
    refine ⟨s, rfl, ?_⟩
    obtain ⟨hlt, hnone, -⟩ := findIdx?_eq_some_iff_getElem.mp hfind
    rw [getElem?_eq_getElem hlt, isNone_iff_eq_none.mp hnone]
  | none =>
    -- Otherwise every slot is the slot of an edge, and there are 48 of them.
    have hfull : range 48 ⊆ (edgesOf f).map fun e => slot e.1 := by
      intro s hs
      rw [mem_range] at hs
      obtain ⟨e, he, hslot⟩ | hvacant := h.covered s hs
      · obtain ⟨n, hn⟩ := ne_none_iff_exists'.mp he
        exact mem_map.mpr ⟨(e, n), mem_edgesOf.mpr hn, hslot⟩
      · have := findIdx?_eq_none_iff.mp hfind none (mem_of_getElem? hvacant)
        simp at this
    have hcount := (nodup_range.subperm hfull).length_le
    rw [length_range, length_map] at hcount
    omega

end Indexed

/-! ## Enumerating edges into slots -/

/-- The loop of the promotion to Node48: the edges take the slots from `s` on, in order. -/
theorem fillNode48_spec (edges : List (UInt8 × N)) :
    ∀ (s : ℕ) (index : List UInt8) (nodes : List (Option N)), index.length = 256 →
      s + edges.length ≤ nodes.length → (edges.map Prod.fst).Nodup →
      ∃ index' nodes', Children.fillNode48 (edges.map Prod.fst) (edges.map fun e => some e.2) s index
          nodes = .ok (index', nodes') ∧
        index'.length = 256 ∧ nodes'.length = nodes.length ∧
        (∀ i e, edges[i]? = some e → index'[e.1.toNat]? = some (encodeNode48Slot (s + i)) ∧
          nodes'[s + i]? = some (some e.2)) ∧
        (∀ edge : UInt8, edge ∉ edges.map Prod.fst → index'[edge.toNat]? = index[edge.toNat]?) ∧
        ∀ j, j < s ∨ s + edges.length ≤ j → nodes'[j]? = nodes[j]? := by
  induction edges with
  | nil =>
    intro s index nodes hindex _ _
    exact ⟨index, nodes, rfl, hindex, rfl, by simp, fun _ _ => rfl, fun _ _ => rfl⟩
  | cons e edges ih =>
    intro s index nodes hindex hroom hnodup
    rw [length_cons] at hroom
    rw [map_cons, nodup_cons] at hnodup
    obtain ⟨index', nodes', hfill, hindex', hnodes', hhere, helse, hother⟩ :=
      ih (s + 1) (index.set e.1.toNat (encodeNode48Slot s)) (nodes.set s (some e.2))
        (by simpa using hindex) (by rw [length_set]; omega) hnodup.2
    have hedge := edge_lt e.1
    refine ⟨index', nodes', ?_, hindex', by simpa using hnodes', ?_, ?_, ?_⟩
    · rw [map_cons, map_cons, Children.fillNode48, if_neg (by omega), if_neg (by omega)]
      exact hfill
    · intro i x hx
      cases i with
      | zero =>
        rw [getElem?_cons_zero, some.injEq] at hx
        subst hx
        rw [helse _ hnodup.1, Nat.add_zero, hother s (Or.inl (Nat.lt_succ_self s))]
        exact ⟨getElem?_set_self (by omega), getElem?_set_self (by omega)⟩
      | succ i =>
        rw [getElem?_cons_succ] at hx
        have := hhere i x hx
        rwa [Nat.add_right_comm s 1 i, Nat.add_assoc] at this
    · intro edge hnot
      rw [map_cons, mem_cons, not_or] at hnot
      rw [helse edge hnot.2, getElem?_set_ne (Indexed.toNat_ne hnot.1).symm]
    · intro j hj
      rw [length_cons] at hj
      rw [hother j (by omega), getElem?_set_ne (by omega)]

theorem nodup_keys (f : UInt8 → Option N) : ((edgesOf f).map Prod.fst).Nodup := by
  refine pairwise_map.mpr ((pairwise_edgesOf f).imp ?_)
  rintro a b hlt heq
  rw [heq] at hlt
  exact UInt8.lt_irrefl _ hlt

/-- The position of an edge among the edges. -/
theorem getElem?_idxOf {node : N} (h : f edge = some node) :
    (edgesOf f)[((edgesOf f).map Prod.fst).idxOf edge]? = some (edge, node) := by
  obtain ⟨i, hi, hget⟩ := mem_iff_getElem.mp (mem_edgesOf.mpr h)
  have hi' : i < ((edgesOf f).map Prod.fst).length := by simpa using hi
  have hkey : ((edgesOf f).map Prod.fst)[i] = edge := by simp [hget]
  have hidx : ((edgesOf f).map Prod.fst).idxOf edge = i := by
    rw [← hkey]
    exact (nodup_keys f).idxOf_getElem i hi'
  rw [hidx, getElem?_eq_getElem hi, hget]

/-- The slots after all edges are enumerated into fresh vectors. -/
theorem fillNode48_indexed (f : UInt8 → Option N) (hlen : (edgesOf f).length ≤ 48) :
    ∃ index nodes, Children.fillNode48 ((edgesOf f).map Prod.fst) ((edgesOf f).map fun e => some e.2)
        0 (List.replicate 256 0) (List.replicate 48 none) = .ok (index, nodes) ∧
      Indexed index nodes f (fun edge => ((edgesOf f).map Prod.fst).idxOf edge) ∧
      ∀ s < 48, (edgesOf f).length ≤ s → nodes[s]? = some none := by
  obtain ⟨index, nodes, hfill, hindex, hnodes, hhere, helse, hother⟩ :=
    fillNode48_spec (edgesOf f) 0 (List.replicate 256 0) (List.replicate 48 (none : Option N))
      List.length_replicate (by simpa using hlen) (nodup_keys f)
  rw [List.length_replicate] at hnodes
  have hrest : ∀ s < 48, (edgesOf f).length ≤ s → nodes[s]? = some none := by
    intro s hs hle
    rw [hother s (by omega), List.getElem?_replicate, if_pos hs]
  have hidx : ∀ edge, f edge ≠ none →
      ((edgesOf f).map Prod.fst).idxOf edge < (edgesOf f).length := by
    intro edge hedge
    obtain ⟨n, hn⟩ := Option.ne_none_iff_exists'.mp hedge
    exact (List.getElem?_eq_some_iff.mp (getElem?_idxOf hn)).1
  refine ⟨index, nodes, hfill, ⟨hindex, hnodes, ?_, ?_, ?_, ?_⟩, hrest⟩
  · intro edge hedge
    have hnot : edge ∉ (edgesOf f).map Prod.fst := by
      intro hmem
      obtain ⟨⟨e, n⟩, he, rfl⟩ := List.mem_map.mp hmem
      rw [mem_edgesOf.mp he] at hedge
      cases hedge
    rw [helse edge hnot, List.getElem?_replicate, if_pos (edge_lt edge)]
  · intro edge node hedge
    have hhere' := hhere _ _ (getElem?_idxOf hedge)
    rw [Nat.zero_add] at hhere'
    exact ⟨Nat.lt_of_lt_of_le (hidx edge (by simp [hedge])) hlen, hhere'⟩
  · intro edge edge' hedge hedge' heq
    obtain ⟨n, hn⟩ := Option.ne_none_iff_exists'.mp hedge
    obtain ⟨n', hn'⟩ := Option.ne_none_iff_exists'.mp hedge'
    have := getElem?_idxOf hn
    rw [heq, getElem?_idxOf hn', Option.some.injEq, Prod.mk.injEq] at this
    exact this.1.symm
  · intro s hs
    by_cases hlt : s < (edgesOf f).length
    · left
      have hmem : (edgesOf f)[s] ∈ edgesOf f := List.getElem_mem hlt
      have hf : f (edgesOf f)[s].1 = some (edgesOf f)[s].2 := mem_edgesOf.mp hmem
      refine ⟨(edgesOf f)[s].1, by simp [hf], ?_⟩
      have hlt' : s < ((edgesOf f).map Prod.fst).length := by simpa using hlt
      have hkey : ((edgesOf f).map Prod.fst)[s] = (edgesOf f)[s].1 := by simp
      rw [← hkey]
      exact (nodup_keys f).idxOf_getElem s hlt'
    · exact Or.inr (hrest s hs (by omega))

/-! ## Insertion -/

/-- One edge of a Node256 written. -/
theorem getElem?_setEdge {nodes : List (Option N)} (hlen : nodes.length = 256)
    (hall : ∀ edge : UInt8, nodes[edge.toNat]? = some (f edge)) (edge : UInt8) (x : Option N)
    (e : UInt8) : (nodes.set edge.toNat x)[e.toNat]? = some (update f edge x e) := by
  by_cases heq : e = edge
  · subst heq
    rw [update_self, getElem?_set_self (by rw [hlen]; exact edge_lt e)]
  · rw [update_of_ne heq, getElem?_set_ne (Indexed.toNat_ne heq).symm, hall e]

namespace Children.Holds

variable {c : Children N} {f : UInt8 → Option N}

theorem put (h : c.Holds f) {edge : UInt8} (hedge : f edge ≠ none) (node : N) :
    (c.put edge node).Holds (update f edge (some node)) := by
  obtain ⟨old, hold⟩ := ne_none_iff_exists'.mp hedge
  have hlength := length_put node hedge
  -- The two sorted layouts write at the place the search finds.
  have hpair : ((edgesOf f).map fun e => some e.2).set (edgesAmong f (below edge)).length (some node) =
      (edgesOf (update f edge (some node))).map fun e => some e.2 := by
    rw [edgesOf_insert, edgesOf_of_some hold, map_append, map_append, map_cons, map_cons]
    have := set_append_length ((edgesAmong f (below edge)).map fun e => some e.2)
      ((edgesAmong f (above edge)).map fun e => some e.2) (some old) (some node)
    rwa [length_map] at this
  have hkeys : (edgesOf f).map Prod.fst = (edgesOf (update f edge (some node))).map Prod.fst := by
    rw [edgesOf_insert, edgesOf_of_some hold]
    simp
  cases c with
  | node4 keys nodes | node16 keys nodes =>
    obtain ⟨rfl, rfl, hle⟩ := h
    simp only [Children.put, Children.slotOf, searchEdge_found hold, Except.toOption]
    exact ⟨hkeys, hpair, by omega⟩
  | node48 index nodes len =>
    obtain ⟨hlen, slot, hslot⟩ := h
    obtain ⟨hlt, hindex, -⟩ := hslot.taken edge old hold
    have hput : (Children.node48 index nodes len).put edge node =
        .node48 index (nodes.set (slot edge) (some node)) len := by
      simp [Children.put, Children.slotOf, Children.nodes, Children.withNodes, hindex,
        encode_ne_zero hlt, decode_encode hlt]
    rw [hput]
    exact ⟨by omega, slot, hslot.put hedge node⟩
  | node256 nodes len =>
    obtain ⟨hlen, hnodes, hall⟩ := h
    refine ⟨by omega, by simpa [Children.nodes] using hnodes, fun e => ?_⟩
    exact getElem?_setEdge hnodes hall edge (some node) e

end Children.Holds

end FrankenGraph.Art

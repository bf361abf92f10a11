import FrankenGraph.Zset.ZSet

/-!
# Unordered pairs

Operators over undirected graphs bring the ends of every edge into order, so that both directions of
an edge and its parallels add to the multiplicity of one pair.

Results:
* `canonical_eq_iff`: two edges are brought to the same pair
* `coeff_normalized`: a normalized delta adds both directions
* `weights_pair`, `mem_weights`: the staged multiplicities of a pair
* `coeff_rowDelta`: the difference of two maps over a set of keys
-/

namespace FrankenGraph.Zset

open Std (ExtTreeMap ExtTreeSet)

variable {V : Type} [LinearOrder V]

/-- `canonical` (`triangles.rs` L94-100, `components.rs` L103-109). -/
def canonical (a b : V) : V × V :=
  if a ≤ b then (a, b) else (b, a)

theorem canonical_of_lt {a b : V} (h : a < b) : canonical a b = (a, b) ∧ canonical b a = (a, b) :=
  ⟨if_pos h.le, if_neg h.not_ge⟩

theorem canonical_pair (a b : V) : canonical a b = (a, b) ∨ canonical a b = (b, a) := by
  unfold canonical
  split_ifs
  · exact .inl rfl
  · exact .inr rfl

theorem canonical_comm (a b : V) : canonical a b = canonical b a := by
  rcases lt_trichotomy a b with h | rfl | h
  · rw [(canonical_of_lt h).1, (canonical_of_lt h).2]
  · rfl
  · rw [(canonical_of_lt h).1, (canonical_of_lt h).2]

theorem canonical_le (a b : V) : (canonical a b).1 ≤ (canonical a b).2 := by
  unfold canonical
  split_ifs with h
  · exact h
  · exact (not_le.mp h).le

/-- What a delta adds to the multiplicity of an unordered pair. -/
def pairDelta (delta : ZSet (V × V)) (a b : V) : Int :=
  if a = b then delta.coeff (a, b) else delta.coeff (a, b) + delta.coeff (b, a)

/-- The integrated multiplicity of an unordered pair. -/
def bag (inputs : List (ZSet (V × V))) (a b : V) : Int :=
  (inputs.map fun delta => pairDelta delta a b).sum

theorem bag_concat (inputs : List (ZSet (V × V))) (delta : ZSet (V × V)) (a b : V) :
    bag (inputs ++ [delta]) a b = bag inputs a b + pairDelta delta a b := by
  simp [bag]

/-! ## Normalized deltas -/

/-- The delta over unordered pairs, as `prepare` of the triangles and of the components takes it. -/
def normalized (delta : ZSet (V × V)) : ZSet (V × V) :=
  delta.map fun e => canonical e.1 e.2

theorem canonical_eq_iff {a b x y : V} :
    canonical a b = canonical x y ↔ (a, b) = (x, y) ∨ (a, b) = (y, x) := by
  unfold canonical
  simp only [Prod.mk.injEq]
  split_ifs with h₁ h₂ h₂ <;> simp only [Prod.mk.injEq]
  · refine ⟨.inl, ?_⟩
    rintro (h | ⟨rfl, rfl⟩)
    · exact h
    · exact ⟨le_antisymm h₁ h₂, le_antisymm h₂ h₁⟩
  · refine ⟨.inr, ?_⟩
    rintro (⟨rfl, rfl⟩ | h)
    · exact absurd h₁ h₂
    · exact h
  · refine ⟨fun h => .inr ⟨h.2, h.1⟩, ?_⟩
    rintro (⟨rfl, rfl⟩ | h)
    · exact absurd h₂ h₁
    · exact ⟨h.2, h.1⟩
  · refine ⟨fun h => .inl ⟨h.2, h.1⟩, ?_⟩
    rintro (h | ⟨rfl, rfl⟩)
    · exact ⟨h.2, h.1⟩
    · exact absurd (le_of_not_ge h₁) h₂

theorem coeff_normalized (delta : ZSet (V × V)) (a b : V) :
    (normalized delta).coeff (canonical a b) = pairDelta delta a b := by
  have hsplit : ∀ e : (V × V) × Int, (if canonical e.1.1 e.1.2 = canonical a b then e.2 else 0) =
        (if e.1 = (a, b) then e.2 else 0) + if a = b then 0 else if e.1 = (b, a) then e.2 else 0 := by
    rintro ⟨⟨x, y⟩, w⟩
    simp only [canonical_eq_iff]
    by_cases hab : a = b
    · subst hab
      simp
    · by_cases h₁ : (x, y) = (a, b)
      · have h₂ : (x, y) ≠ (b, a) := by
          rw [h₁]
          simp [hab]
        simp [h₁, hab]
      · simp [h₁, hab]
  have hsingle : ∀ k, (delta.iter.map fun e => if e.1 = k then e.2 else 0).sum = delta.coeff k :=
    fun k => delta.sum_iter_single k id rfl
  rw [normalized, ZSet.coeff_map, List.map_congr_left fun e _ => hsplit e, List.sum_map_add,
    hsingle, pairDelta]
  split_ifs
  · simp
  · rw [hsingle]

theorem le_of_coeff_normalized {delta : ZSet (V × V)} {e : V × V}
    (h : (normalized delta).coeff e ≠ 0) : e.1 ≤ e.2 := by
  by_contra hnot
  refine h ?_
  rw [normalized, ZSet.coeff_map]
  refine List.sum_eq_zero fun w hw => ?_
  obtain ⟨d, -, rfl⟩ := List.mem_map.mp hw
  rw [if_neg]
  rintro rfl
  exact hnot (canonical_le _ _)

/-! ## Staged multiplicities -/

section Weights

variable {z delta : ZSet (V × V)}

/-- The staged entry of a pair is its multiplicity after the tick. -/
theorem weights_pair {c : (V × V) × Int} {a b : V}
    (hc : c ∈ (z.prepareIntegration (normalized delta)).toList)
    (hpair : c.1 = (a, b) ∨ c.1 = (b, a)) :
    c.1 = canonical a b ∧
      c.2 = z.coeff (canonical a b) + (normalized delta).coeff (canonical a b) := by
  obtain ⟨heq, hne⟩ := ZSet.lookup_weights (ExtTreeMap.mem_toList_iff_getElem?_eq_some.mp hc)
  have hle := le_of_coeff_normalized hne
  have hcanonical : c.1 = canonical a b := by
    rcases hpair with hpair | hpair
    · rw [hpair] at hle ⊢
      exact (if_pos hle).symm
    · rw [hpair] at hle ⊢
      rw [canonical_comm]
      exact (if_pos hle).symm
  exact ⟨hcanonical, by rw [heq, hcanonical]⟩

/-- A pair whose multiplicity changes is staged. -/
theorem mem_weights {a b : V}
    (hne : z.coeff (canonical a b) + (normalized delta).coeff (canonical a b) ≠
      z.coeff (canonical a b)) :
    (canonical a b, z.coeff (canonical a b) + (normalized delta).coeff (canonical a b)) ∈
      (z.prepareIntegration (normalized delta)).toList :=
  ExtTreeMap.mem_toList_iff_getElem?_eq_some.mpr (ZSet.weights_of_ne hne)

end Weights

/-! ## Replaced rows -/

section Rows

variable {β : Type} [LinearOrder β]

/-- The rows that differ between two maps over a set of keys, as the operators that keep one value
for each vertex return them. -/
def rowDelta (old next : BTreeMap V β) (candidates : BTreeSet V) : ZSet (V × β) :=
  candidates.toList.foldl (fun delta vertex =>
    let old := old[vertex]?
    let next := next[vertex]?
    if old = next then delta
    else
      let delta := match old with
        | some value => delta.accumulate (vertex, value) (-1)
        | none => delta
      match next with
      | some value => delta.accumulate (vertex, value) 1
      | none => delta) .new

/-- One if a map has a row, zero otherwise. -/
def rowWeight (m : BTreeMap V β) (v : V) (b : β) : Int :=
  if m[v]? = some b then 1 else 0

/-- A loop over the keys that accumulates the rows that differ. -/
theorem coeff_rowDelta (old next : BTreeMap V β) (candidates : BTreeSet V) (v : V) (b : β) :
    (rowDelta old next candidates).coeff (v, b) =
      if v ∈ candidates then rowWeight next v b - rowWeight old v b else 0 := by
  let value : V → Int := fun u => if u = v then rowWeight next v b - rowWeight old v b else 0
  unfold rowDelta
  rw [@ZSet.coeff_foldl _ _ _ (v, b) V _ value, ZSet.coeff_new, zero_add,
    sum_eq_single_of_nodup (BTreeSet.nodup_toList _) _ v]
  · simp only [ExtTreeSet.mem_toList, value, if_true]
  · intro u _ hu
    exact if_neg hu
  · intro delta u
    simp only [value, rowWeight]
    by_cases huv : u = v
    · subst huv
      cases old[u]? with
      | none =>
        cases next[u]? with
        | none => simp
        | some b₂ => by_cases h₂ : b₂ = b <;> simp [h₂]
      | some b₁ =>
        cases next[u]? with
        | none => by_cases h₁ : b₁ = b <;> simp [h₁]
        | some b₂ =>
          by_cases hsame : b₁ = b₂
          · simp [hsame]
          · by_cases h₂ : b₂ = b
            · subst h₂
              simp [hsame]
            · by_cases h₁ : b₁ = b
              · subst h₁
                simp [h₂, Ne.symm h₂]
              · simp [hsame, h₁, h₂]
    · cases old[u]? with
      | none =>
        cases next[u]? with
        | none => simp [huv]
        | some b₂ => simp [huv]
      | some b₁ =>
        cases next[u]? with
        | none => simp [huv]
        | some b₂ => by_cases hsame : b₁ = b₂ <;> simp [hsame, huv]

/-- When the maps agree outside the keys, the delta is the difference of all their rows. -/
theorem coeff_rowDelta_of_outside {old next after : BTreeMap V β} {candidates : BTreeSet V}
    (hinside : ∀ v ∈ candidates, after[v]? = next[v]?)
    (houtside : ∀ v, v ∉ candidates → after[v]? = old[v]?) (v : V) (b : β) :
    (rowDelta old next candidates).coeff (v, b) = rowWeight after v b - rowWeight old v b := by
  rw [coeff_rowDelta]
  by_cases hv : v ∈ candidates
  · rw [if_pos hv, rowWeight, ← hinside v hv, ← rowWeight]
  · rw [if_neg hv, rowWeight, houtside v hv, ← rowWeight, sub_self]

end Rows

end FrankenGraph.Zset

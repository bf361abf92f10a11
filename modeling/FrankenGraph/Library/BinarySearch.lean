import Mathlib

/-!
# Binary search

The branch-free search of Rust's `slice::binary_search_by`: the interval is halved until one
candidate is left, and only that one is tested for equality. On a list that is not sorted the
result is still determined, so callers may be modelled on any input.

Results:
* `binarySearchBy_found`: the one match of a sorted list is found
* `binarySearchBy_missing`: without a match the search ends where one would be inserted
-/

namespace FrankenGraph

open List Option

variable {α : Type} {probe : α → Ordering}

/-- The candidate after halving `[base, base + size)` at most `fuel` times. -/
def searchBase (probe : α → Ordering) (xs : List α) : ℕ → ℕ → ℕ → ℕ
  | 0, base, _ => base
  | fuel + 1, base, size =>
    if size ≤ 1 then base
    else
      searchBase probe xs fuel
        (if xs[base + size / 2]?.map probe = some .gt then base else base + size / 2)
        (size - size / 2)

/-- The result once one candidate is left. -/
def searchEnd (probe : α → Ordering) (xs : List α) (base : ℕ) : Except ℕ ℕ :=
  match xs[base]?.map probe with
  | none => .error 0
  | some .eq => .ok base
  | some .lt => .error (base + 1)
  | some .gt => .error base

/-- `slice::binary_search_by`: `.ok` the position of a match, or `.error` the position to insert
one. -/
def binarySearchBy (probe : α → Ordering) (xs : List α) : Except ℕ ℕ :=
  searchEnd probe xs (searchBase probe xs xs.length 0 xs.length)

/-! ## Sorted lists -/

/-- When the elements above the target are those from `n` on, the search ends at the last one before
them. -/
theorem searchBase_spec {xs : List α} {n : ℕ}
    (hgt : ∀ i, i < xs.length → (xs[i]?.map probe = some .gt ↔ n ≤ i)) (fuel : ℕ) :
    ∀ base size, size ≤ fuel + 1 → 0 < size → base + size ≤ xs.length → (base < n ∨ base = 0) →
      n ≤ base + size →
      (searchBase probe xs fuel base size < n ∨ searchBase probe xs fuel base size = 0) ∧
        n ≤ searchBase probe xs fuel base size + 1 := by
  induction fuel with
  | zero =>
    intro base size hfuel hpos hend hbase hn
    have hsize : size = 1 := by omega
    subst hsize
    exact ⟨hbase, hn⟩
  | succ fuel ih =>
    intro base size hfuel hpos hend hbase hn
    rw [searchBase]
    split
    · exact ⟨hbase, by omega⟩
    · have hmid := hgt (base + size / 2) (by omega)
      by_cases h : n ≤ base + size / 2
      · rw [if_pos (hmid.mpr h)]
        exact ih base (size - size / 2) (by omega) (by omega) (by omega) hbase (by omega)
      · rw [if_neg (mt hmid.mp h)]
        exact ih _ (size - size / 2) (by omega) (by omega) (by omega) (.inl (by omega)) (by omega)

/-- The search tests the last element that is not above the target. -/
theorem binarySearchBy_eq {xs : List α} {n : ℕ}
    (hgt : ∀ i, i < xs.length → (xs[i]?.map probe = some .gt ↔ n ≤ i)) (hn : n ≤ xs.length) :
    binarySearchBy probe xs = searchEnd probe xs (n - 1) := by
  rcases Nat.eq_zero_or_pos xs.length with hzero | hpos
  · obtain rfl := eq_nil_of_length_eq_zero hzero
    rfl
  · obtain ⟨hbase, hlast⟩ := searchBase_spec hgt xs.length 0 xs.length (by omega) hpos (by omega)
      (.inr rfl) (by omega)
    rw [binarySearchBy, show searchBase probe xs xs.length 0 xs.length = n - 1 by omega]

/-- The elements above the target are those after the split. -/
theorem above_iff {before after : List α} (hle : ∀ a ∈ before, probe a ≠ .gt)
    (hgt : ∀ a ∈ after, probe a = .gt) (i : ℕ) (hi : i < (before ++ after).length) :
    (before ++ after)[i]?.map probe = some .gt ↔ before.length ≤ i := by
  rw [getElem?_eq_getElem hi, map_some, some_inj]
  by_cases h : i < before.length
  · rw [getElem_append_left h]
    exact iff_of_false (hle _ (getElem_mem h)) (by omega)
  · rw [getElem_append_right (by omega)]
    exact iff_of_true (hgt _ (getElem_mem _)) (by omega)

/-- Elements below the target, then elements above it: the position between them. -/
theorem binarySearchBy_missing {before after : List α} (hlt : ∀ a ∈ before, probe a = .lt)
    (hgt : ∀ a ∈ after, probe a = .gt) :
    binarySearchBy probe (before ++ after) = .error before.length := by
  have hle : ∀ a ∈ before, probe a ≠ .gt := fun a ha => by rw [hlt a ha]; decide
  rw [binarySearchBy_eq (above_iff hle hgt) (by simp), searchEnd]
  rcases Nat.eq_zero_or_pos before.length with hzero | hpos
  · obtain rfl := eq_nil_of_length_eq_zero hzero
    cases after with
    | nil => rfl
    | cons a after => simp [hgt a]
  · have h : before.length - 1 < before.length := by omega
    rw [getElem?_append_left h, getElem?_eq_getElem h, map_some, hlt _ (getElem_mem h)]
    exact congrArg _ (Nat.sub_add_cancel hpos)

/-- Elements below the target, a match, and elements above it: the position of the match. -/
theorem binarySearchBy_found {before after : List α} {a : α} (hlt : ∀ a ∈ before, probe a = .lt)
    (heq : probe a = .eq) (hgt : ∀ a ∈ after, probe a = .gt) :
    binarySearchBy probe (before ++ a :: after) = .ok before.length := by
  have hle : ∀ b ∈ before ++ [a], probe b ≠ .gt := by
    intro b hb
    rcases mem_append.mp hb with hb | hb
    · rw [hlt b hb]; decide
    · rw [mem_singleton.mp hb, heq]; decide
  rw [append_cons, binarySearchBy_eq (above_iff hle hgt) (by simp), searchEnd]
  simp [heq]

end FrankenGraph

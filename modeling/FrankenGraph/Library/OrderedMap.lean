import FrankenGraph.Library.OrderedSet

/-!
# Ordered maps

A finite map that is iterated in the order of its keys, and sums over its values.

Results:
* `BTreeMap.lookup_insert`, `BTreeMap.lookup_erase`: what a map holds after a change
* `BTreeMap.lookup_insertMany`: installing a list of entries
* `BTreeMap.sumOf_insert_add`, `BTreeMap.sumOf_erase_add`: a change moves a sum by the value that
  enters minus the value that leaves
-/

namespace FrankenGraph

open Std List Option ExtTreeMap

/-- A map that is iterated in increasing order of its keys. -/
abbrev BTreeMap (κ ν : Type) [Ord κ] := ExtTreeMap κ ν compare

namespace BTreeMap

variable {κ ν : Type} [Ord κ] [TransOrd κ]

variable [LawfulEqOrd κ] [DecidableEq κ] {m : BTreeMap κ ν} {k a : κ} {v : ν}

theorem lookup_insert : (m.insert k v)[a]? = if k = a then some v else m[a]? := by
  rw [ExtTreeMap.getElem?_insert]
  simp only [LawfulEqOrd.compare_eq_iff_eq]

theorem lookup_erase : (m.erase k)[a]? = if k = a then none else m[a]? := by
  rw [getElem?_erase]
  simp only [LawfulEqOrd.compare_eq_iff_eq]

omit [LawfulEqOrd κ] [DecidableEq κ] in
theorem mem_iff_lookup : a ∈ m ↔ ∃ v, m[a]? = some v := by
  rw [mem_iff_isSome_getElem?, isSome_iff_exists]

omit [DecidableEq κ] in
theorem nodup_toList (m : BTreeMap κ ν) : m.toList.Nodup := by
  refine distinct_keys_toList.imp ?_
  rintro e e' hne rfl
  exact hne ReflCmp.compare_self

omit [DecidableEq κ] in
theorem nodup_keys (m : BTreeMap κ ν) : (m.toList.map Prod.fst).Nodup := by
  rw [List.Nodup, pairwise_map]
  refine distinct_keys_toList.imp fun hne heq => hne ?_
  rw [heq]
  exact ReflCmp.compare_self

/-- The entry of a key that is inserted comes in front of the entries of the other keys. -/
theorem toList_insert_perm : (m.insert k v).toList.Perm ((k, v) :: (m.erase k).toList) := by
  have hnew : (k, v) ∉ (m.erase k).toList := by
    rw [mem_toList_iff_getElem?_eq_some, lookup_erase, if_pos rfl]
    exact nofun
  refine (perm_ext_iff_of_nodup (nodup_toList _)
    (nodup_cons.mpr ⟨hnew, nodup_toList _⟩)).mpr ?_
  rintro ⟨a, w⟩
  rw [mem_cons, mem_toList_iff_getElem?_eq_some,
    mem_toList_iff_getElem?_eq_some, lookup_insert, lookup_erase, Prod.mk.injEq]
  by_cases hka : k = a
  · rw [if_pos hka, if_pos hka, some.injEq]
    simp only [reduceCtorEq, or_false, hka, true_and]
    exact eq_comm
  · simp only [if_neg hka, Ne.symm hka, false_and, false_or]

/-! ## Sums over the values -/

/-- The sum of a function over the values. -/
def sumOf (m : BTreeMap κ ν) (f : ν → Nat) : Nat :=
  (m.toList.map fun e => f e.2).sum

omit [LawfulEqOrd κ] [DecidableEq κ] in
@[simp]
theorem sumOf_empty (f : ν → Nat) : sumOf (∅ : BTreeMap κ ν) f = 0 := by
  have hempty : (∅ : BTreeMap κ ν).toList = [] :=
    isEmpty_iff.mp (by rw [isEmpty_toList]; exact isEmpty_empty)
  rw [sumOf, hempty]
  rfl

theorem sumOf_insert (f : ν → Nat) : sumOf (m.insert k v) f = f v + sumOf (m.erase k) f := by
  unfold sumOf
  rw [(toList_insert_perm.map _).sum_eq, map_cons, sum_cons]

/-- Erasing a key takes the value it held out of the sum. -/
theorem sumOf_erase_add (f : ν → Nat) :
    sumOf (m.erase k) f + ((m[k]?).map f).getD 0 = sumOf m f := by
  cases hk : m[k]? with
  | none =>
    have herase : m.erase k = m := by
      refine ext_getElem? fun a => ?_
      rw [lookup_erase]
      split_ifs with hka
      · rw [← hka, hk]
      · rfl
    rw [herase]
    rfl
  | some w =>
    have hinsert : m.insert k w = m := by
      refine ext_getElem? fun a => ?_
      rw [lookup_insert]
      split_ifs with hka
      · rw [← hka, hk]
      · rfl
    have hsum := @sumOf_insert κ ν _ _ _ _ m k w f
    rw [hinsert] at hsum
    rw [hsum]
    exact Nat.add_comm _ _

theorem sumOf_insert_add (f : ν → Nat) :
    sumOf (m.insert k v) f + ((m[k]?).map f).getD 0 = sumOf m f + f v := by
  have herase := @sumOf_erase_add κ ν _ _ _ _ m k f
  rw [sumOf_insert]
  omega

/-! ## Installing a list of entries -/

/-- Entries with distinct keys are all there afterwards, and nothing else changes. -/
theorem lookup_insertMany {l : List (κ × ν)} (hdistinct : (l.map Prod.fst).Nodup) :
    ((k, v) ∈ l → (m.insertMany l)[k]? = some v) ∧
      (k ∉ l.map Prod.fst → (m.insertMany l)[k]? = m[k]?) := by
  refine ⟨fun hmem => ?_, fun hnot => ?_⟩
  · refine getElem?_insertMany_list_of_mem ReflCmp.compare_self ?_ hmem
    rw [List.Nodup, pairwise_map] at hdistinct
    exact hdistinct.imp fun hne heq => hne (LawfulEqOrd.eq_of_compare heq)
  · refine getElem?_insertMany_list_of_contains_eq_false ?_
    simpa using hnot

end BTreeMap

end FrankenGraph

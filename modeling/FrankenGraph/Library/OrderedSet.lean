import Mathlib

/-!
# Ordered sets

A finite set that is iterated in the order of its elements. It is determined by its elements, so two
ways to build one set are compared by membership alone.

Results:
* `BTreeSet.mem_filter`, `BTreeSet.isSubset_iff`: what retaining and comparing mean
* `BTreeSet.exists_notMem`: a set with fewer than `n` elements misses one of any `n` values
* `sortByOrd_eq_of_perm`: sorting forgets the order of its input
* `mem_dedupAdjacent`: dropping repeated neighbours keeps the elements
-/

namespace FrankenGraph

open Std

/-- A set that is iterated in increasing order. -/
abbrev BTreeSet (α : Type) [Ord α] := ExtTreeSet α compare

variable {α : Type} [Ord α]

namespace BTreeSet

/-- Whether every element of `s` is one of `t`. -/
def isSubset (s t : BTreeSet α) [TransOrd α] : Bool :=
  s.toList.all fun a => t.contains a

variable [TransOrd α]

/-- Sets are compared by their elements in order. -/
instance : Ord (BTreeSet α) := ⟨fun s t => compare s.toList t.toList⟩

instance : TransOrd (BTreeSet α) where
  eq_swap {s t} := show compare s.toList t.toList = (compare t.toList s.toList).swap from
    OrientedCmp.eq_swap
  isLE_trans {s t u} (hst : (compare s.toList t.toList).isLE)
      (htu : (compare t.toList u.toList).isLE) := show (compare s.toList u.toList).isLE from
    TransCmp.isLE_trans hst htu

variable [LawfulEqOrd α]

instance : LawfulEqOrd (BTreeSet α) where
  eq_of_compare h := ExtTreeSet.toList_inj.mp (LawfulEqOrd.eq_of_compare h)

variable {s : BTreeSet α}

theorem mem_filter {keep : α → Bool} {a : α} : a ∈ s.filter keep ↔ a ∈ s ∧ keep a = true := by
  rw [ExtTreeSet.mem_filter]
  simp only [ExtTreeSet.get_eq, exists_prop]

theorem isSubset_iff {t : BTreeSet α} : s.isSubset t = true ↔ ∀ a ∈ s, a ∈ t := by
  simp only [isSubset, List.all_eq_true, ExtTreeSet.mem_toList, ExtTreeSet.contains_iff_mem]

theorem nodup_toList (s : BTreeSet α) : s.toList.Nodup := by
  refine ExtTreeSet.distinct_toList.imp ?_
  rintro a b hne rfl
  exact hne ReflCmp.compare_self

/-- When a list is inserted one by one, its elements are there afterwards. -/
theorem mem_foldl_insert {β : Type} (f : β → α) (l : List β) (s : BTreeSet α) {a : α} :
    a ∈ l.foldl (fun s b => s.insert (f b)) s ↔ a ∈ s ∨ ∃ b ∈ l, f b = a := by
  induction l generalizing s with
  | nil => simp
  | cons b l ih =>
    rw [List.foldl_cons, ih, ExtTreeSet.mem_insert, LawfulEqOrd.compare_eq_iff_eq]
    simp only [List.mem_cons, exists_eq_or_imp]
    rw [or_comm (a := f b = a), or_assoc]

theorem exists_notMem {n : Nat} {value : Fin n → α} (hvalue : Function.Injective value)
    (h : s.size < n) : ∃ i, value i ∉ s := by
  classical
  by_contra hall
  push Not at hall
  have hsub : Finset.univ.image value ⊆ s.toList.toFinset := by
    intro a ha
    obtain ⟨i, -, rfl⟩ := Finset.mem_image.mp ha
    rw [List.mem_toFinset, ExtTreeSet.mem_toList]
    exact hall i
  have hcard := Finset.card_le_card hsub
  rw [Finset.card_image_of_injective _ hvalue, Finset.card_univ, Fintype.card_fin,
    List.toFinset_card_of_nodup s.nodup_toList, ExtTreeSet.length_toList] at hcard
  omega

end BTreeSet

/-! ## Sorting and dropping repetitions -/

/-- Sort by the order of the type. -/
def sortByOrd (l : List α) : List α :=
  l.insertionSort fun a b => (compare a b).isLE

theorem sortByOrd_perm (l : List α) : (sortByOrd l).Perm l :=
  List.perm_insertionSort _ l

/-- Sorting by a lawful comparison. -/
theorem pairwise_insertionSort_cmp {α : Type} (cmp : α → α → Ordering) [TransCmp cmp] (l : List α) :
    (l.insertionSort fun a b => (cmp a b).isLE).Pairwise fun a b => (cmp a b).isLE := by
  have htotal : Std.Total fun a b : α => (cmp a b).isLE = true :=
    ⟨fun a b => by
      cases hab : cmp a b with
      | gt =>
        have hba : cmp b a = .lt := OrientedCmp.lt_of_gt hab
        exact .inr (by rw [hba]; rfl)
      | _ => exact .inl rfl⟩
  have htrans : IsTrans α fun a b : α => (cmp a b).isLE = true :=
    ⟨fun a b c => TransCmp.isLE_trans⟩
  exact List.pairwise_insertionSort _ l

theorem pairwise_sortByOrd [TransOrd α] (l : List α) :
    (sortByOrd l).Pairwise fun a b => (compare a b).isLE :=
  pairwise_insertionSort_cmp compare l

theorem sortByOrd_eq_of_perm [TransOrd α] [LawfulEqOrd α] {l l' : List α} (h : l.Perm l') :
    sortByOrd l = sortByOrd l' := by
  refine List.Perm.eq_of_pairwise ?_ (pairwise_sortByOrd l) (pairwise_sortByOrd l')
    ((sortByOrd_perm l).trans (h.trans (sortByOrd_perm l').symm))
  intro a b _ _ hab hba
  exact LawfulEqOrd.eq_of_compare (OrientedCmp.isLE_antisymm hab hba)

/-- Keep one of each run of equal neighbours. -/
def dedupAdjacent {α : Type} [DecidableEq α] : List α → List α
  | [] => []
  | [a] => [a]
  | a :: b :: l => if a = b then dedupAdjacent (b :: l) else a :: dedupAdjacent (b :: l)

@[simp]
theorem mem_dedupAdjacent {α : Type} [DecidableEq α] {l : List α} {a : α} : a ∈ dedupAdjacent l ↔ a ∈ l := by
  fun_induction dedupAdjacent l with
  | case1 => rfl
  | case2 b => rfl
  | case3 b l ih =>
    rw [ih]
    simp
  | case4 b c l hne ih =>
    rw [List.mem_cons, ih]
    exact List.mem_cons.symm

end FrankenGraph

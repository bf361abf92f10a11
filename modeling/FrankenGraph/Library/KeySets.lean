import FrankenGraph.Library.Adjacency
import FrankenGraph.Library.Loop

/-!
# Removing and replacing parts of a map

What a map holds after a set of keys is removed and the entries of another map are put in, and how
many keys it has then.

Results:
* `BTreeMap.lookup_foldl_erase`, `BTreeMap.lookup_extend`: what the map holds
* `BTreeMap.size_replace`: the number of its keys
* `unmarked_insert`: a count of what is not yet marked
* `Adjacency.foldl_rows`: a loop over the rows of a relation is a loop over its pairs
* `Adjacency.has_foldl_unlink_rows`: removing the rows of one relation from another
-/

namespace FrankenGraph

open Std (ExtTreeMap ExtTreeSet TransOrd LawfulEqOrd)

variable {κ ν : Type} [Ord κ] [TransOrd κ] [LawfulEqOrd κ] [DecidableEq κ]

namespace BTreeMap

theorem lookup_foldl_erase (l : List κ) (m : BTreeMap κ ν) (a : κ) :
    (l.foldl (fun (m : BTreeMap κ ν) k => m.erase k) m)[a]? = if a ∈ l then none else m[a]? := by
  induction l generalizing m with
  | nil => simp
  | cons k l ih =>
    rw [List.foldl_cons, ih, lookup_erase]
    by_cases hk : k = a
    · simp [hk]
    · simp [hk, Ne.symm hk]

/-- Putting in the entries of another map. -/
theorem lookup_extend (m other : BTreeMap κ ν) (a : κ) :
    (other.toList.foldl (fun (m : BTreeMap κ ν) e => m.insert e.1 e.2) m)[a]? =
      (other[a]?).or m[a]? := by
  have hloop := foldl_pointwise (fun _ v _ => some v)
    (fun (m : BTreeMap κ ν) (e : κ × ν) (a : κ) =>
      (lookup_insert : (m.insert e.1 e.2)[a]? = _)) other m a
  rw [hloop]
  cases other[a]? <;> rfl

/-- The keys of a map. -/
def keySet (m : BTreeMap κ ν) : Finset κ :=
  (m.toList.map Prod.fst).toFinset

theorem mem_keySet {m : BTreeMap κ ν} {a : κ} : a ∈ m.keySet ↔ ∃ v, m[a]? = some v := by
  rw [keySet, List.mem_toFinset, mem_keys_toList]

theorem card_keySet (m : BTreeMap κ ν) : m.keySet.card = m.size := by
  rw [keySet, List.toFinset_card_of_nodup m.nodup_keys, List.length_map, ExtTreeMap.length_toList]

omit [Ord κ] [TransOrd κ] [LawfulEqOrd κ] in
/-- The size of a set after some elements are removed and others are put in their place. -/
theorem card_replace {old next after removed : Finset κ} (hremoved : removed ⊆ old)
    (hafter : ∀ a, a ∈ after ↔ (a ∈ old ∧ a ∉ removed) ∨ a ∈ next)
    (hdisjoint : ∀ a ∈ next, a ∈ old → a ∈ removed) :
    removed.card ≤ old.card ∧ after.card = old.card - removed.card + next.card := by
  have hunion : after = (old \ removed) ∪ next := by
    ext a
    rw [hafter, Finset.mem_union, Finset.mem_sdiff]
  have hparts : Disjoint (old \ removed) next := by
    rw [Finset.disjoint_left]
    intro a ha hnext
    obtain ⟨hold, hnot⟩ := Finset.mem_sdiff.mp ha
    exact hnot (hdisjoint a hnext hold)
  refine ⟨Finset.card_le_card hremoved, ?_⟩
  rw [hunion, Finset.card_union_of_disjoint hparts, Finset.card_sdiff_of_subset hremoved]

/-- The number of keys after some of them are removed and others are put in their place. -/
theorem size_replace {m m' other : BTreeMap κ ν} {removed : Finset κ}
    (hlookup : ∀ a, m'[a]? = (other[a]?).or (if a ∈ removed then none else m[a]?))
    (hremoved : ∀ a ∈ removed, ∃ v, m[a]? = some v)
    (hdisjoint : ∀ (a : κ) (v : ν), other[a]? = some v → a ∈ removed ∨ m[a]? = none) :
    removed.card ≤ m.size ∧ m'.size = m.size - removed.card + other.size := by
  rw [← card_keySet m, ← card_keySet m', ← card_keySet other]
  refine card_replace (fun a ha => mem_keySet.mpr (hremoved a ha)) (fun a => ?_) fun a ha hold => ?_
  · rw [mem_keySet, mem_keySet, mem_keySet, hlookup]
    cases other[a]? with
    | some v => simp
    | none =>
      by_cases ha : a ∈ removed
      · simp [ha]
      · simp [ha]
  · obtain ⟨v, hv⟩ := mem_keySet.mp ha
    obtain ⟨w, hw⟩ := mem_keySet.mp hold
    rcases hdisjoint a v hv with hin | hnone
    · exact hin
    · cases hw.symm.trans hnone

end BTreeMap

/-- The elements of an ordered set. -/
def BTreeSet.elements (s : BTreeSet κ) : Finset κ :=
  s.toList.toFinset

theorem BTreeSet.mem_elements {s : BTreeSet κ} {a : κ} : a ∈ s.elements ↔ a ∈ s := by
  rw [elements, List.mem_toFinset, ExtTreeSet.mem_toList]

theorem BTreeSet.card_elements (s : BTreeSet κ) : s.elements.card = s.size := by
  rw [elements, List.toFinset_card_of_nodup s.nodup_toList, ExtTreeSet.length_toList]

/-- What is still to come when every unmarked element of a domain counts: marking one takes its
part away. -/
def unmarked (domain marked : BTreeSet κ) (f : κ → Nat) : Nat :=
  ∑ v ∈ domain.elements.filter (· ∉ marked), f v

theorem unmarked_insert {domain marked : BTreeSet κ} {v : κ} (hv : v ∈ domain) (hnew : v ∉ marked)
    (f : κ → Nat) : unmarked domain marked f = f v + unmarked domain (marked.insert v) f := by
  have hmem : v ∈ domain.elements.filter (· ∉ marked) :=
    Finset.mem_filter.mpr ⟨BTreeSet.mem_elements.mpr hv, hnew⟩
  have herase : domain.elements.filter (· ∉ marked.insert v) =
      (domain.elements.filter (· ∉ marked)).erase v := by
    ext u
    simp only [Finset.mem_filter, Finset.mem_erase, ExtTreeSet.mem_insert,
      Std.LawfulEqOrd.compare_eq_iff_eq, not_or]
    tauto
  unfold unmarked
  rw [herase, Finset.add_sum_erase _ _ hmem]

theorem unmarked_le (domain marked : BTreeSet κ) (f : κ → Nat) :
    unmarked domain marked f ≤ (domain.toList.map f).sum := by
  have hsum : ∑ v ∈ domain.elements, f v = (domain.toList.map f).sum :=
    List.sum_toFinset _ (BTreeSet.nodup_toList domain)
  rw [← hsum]
  exact Finset.sum_le_sum_of_subset (Finset.filter_subset _ _)

namespace Adjacency

variable {V : Type} [Ord V] [TransOrd V] [LawfulEqOrd V] [DecidableEq V]

/-- The pairs of a relation, row by row. -/
def pairs (rel : Adjacency V) : List (V × V) :=
  rel.toList.flatMap fun e => e.2.toList.map (Prod.mk e.1)

omit [DecidableEq V] in
theorem mem_pairs {rel : Adjacency V} {a b : V} : (a, b) ∈ rel.pairs ↔ rel.Has a b := by
  rw [pairs, List.mem_flatMap]
  constructor
  · rintro ⟨e, he, hmem⟩
    obtain ⟨v, hv, heq⟩ := List.mem_map.mp hmem
    cases heq
    rw [Has, row, ExtTreeMap.mem_toList_iff_getElem?_eq_some.mp he]
    exact ExtTreeSet.mem_toList.mp hv
  · intro hhas
    unfold Has row at hhas
    cases hrow : rel[a]? with
    | none =>
      rw [hrow] at hhas
      exact absurd hhas ExtTreeSet.not_mem_empty
    | some r =>
      rw [hrow] at hhas
      exact ⟨(a, r), ExtTreeMap.mem_toList_iff_getElem?_eq_some.mpr hrow,
        List.mem_map.mpr ⟨b, ExtTreeSet.mem_toList.mpr hhas, rfl⟩⟩

omit [LawfulEqOrd V] [DecidableEq V] in
theorem foldl_rows {σ : Type} (step : σ → V → V → σ) (rel : Adjacency V) (s : σ) :
    rel.toList.foldl (fun s e => e.2.toList.foldl (fun s b => step s e.1 b) s) s =
      rel.pairs.foldl (fun s p => step s p.1 p.2) s := by
  rw [pairs, List.foldl_flatMap]
  simp only [List.foldl_map]

omit [LawfulEqOrd V] [DecidableEq V] in
/-- A loop whose rounds add pairs. -/
theorem has_foldl {α : Type} {step : Adjacency V → α → Adjacency V} {adds : α → V → V → Prop}
    (hstep : ∀ rel a x y, (step rel a).Has x y ↔ rel.Has x y ∨ adds a x y) (l : List α)
    (rel : Adjacency V) (x y : V) :
    (l.foldl step rel).Has x y ↔ rel.Has x y ∨ ∃ a ∈ l, adds a x y :=
  holds_foldl (fun rel : Adjacency V => rel.Has x y) (fun rel a => hstep rel a x y) l rel

theorem has_foldl_unlink_rows (rel removed : Adjacency V) (x y : V) :
    (removed.toList.foldl (fun rel e =>
      e.2.toList.foldl (fun (rel : Adjacency V) b => rel.unlink e.1 b) rel) rel).Has x y ↔
      rel.Has x y ∧ ¬ removed.Has x y := by
  rw [foldl_rows (fun (rel : Adjacency V) a b => rel.unlink a b)]
  refine (has_foldl_unlink id removed.pairs).trans (and_congr_right fun _ => ?_)
  rw [← mem_pairs]
  exact ⟨fun hnot hmem => hnot _ hmem rfl, fun hnot p hp heq => hnot (heq ▸ hp)⟩

/-- Removing every pair of a relation, the other way round, from another. -/
theorem has_foldl_unlink_converse (rel removed : Adjacency V) (x y : V) :
    (removed.toList.foldl (fun rel e =>
      e.2.toList.foldl (fun (rel : Adjacency V) b => rel.unlink b e.1) rel) rel).Has x y ↔
      rel.Has x y ∧ ¬ removed.Has y x := by
  rw [foldl_rows (fun (rel : Adjacency V) a b => rel.unlink b a)]
  refine (has_foldl_unlink Prod.swap removed.pairs).trans (and_congr_right fun _ => ?_)
  rw [← mem_pairs]
  exact ⟨fun hnot hmem => hnot _ hmem rfl, fun hnot p hp heq => hnot (by cases heq; exact hp)⟩

/-- Adding every pair of a relation, the other way round, to another. -/
theorem has_foldl_link_converse (rel added : Adjacency V) (x y : V) :
    (added.toList.foldl (fun rel e =>
      e.2.toList.foldl (fun (rel : Adjacency V) b => rel.link b e.1) rel) rel).Has x y ↔
      rel.Has x y ∨ added.Has y x := by
  rw [foldl_rows (fun (rel : Adjacency V) a b => rel.link b a)]
  refine (has_foldl_link Prod.swap added.pairs).trans (or_congr_right ?_)
  rw [← mem_pairs]
  exact ⟨fun ⟨p, hp, heq⟩ => by cases heq; exact hp, fun hmem => ⟨_, hmem, rfl⟩⟩

end Adjacency

omit [LawfulEqOrd κ] [DecidableEq κ] in
/-- A loop whose rounds add elements. -/
theorem BTreeSet.mem_foldl {α : Type} {step : BTreeSet κ → α → BTreeSet κ} {adds : α → κ → Prop}
    (hstep : ∀ s a x, x ∈ step s a ↔ x ∈ s ∨ adds a x) (l : List α) (s : BTreeSet κ) (x : κ) :
    x ∈ l.foldl step s ↔ x ∈ s ∨ ∃ a ∈ l, adds a x :=
  holds_foldl (fun s : BTreeSet κ => x ∈ s) (fun s a => hstep s a x) l s

omit [DecidableEq κ] in
/-- A loop that collects what a map has for some keys. -/
theorem BTreeSet.mem_foldl_lookup (m : BTreeMap κ κ) (l : List κ) (s : BTreeSet κ) (x : κ) :
    x ∈ l.foldl (fun s a =>
      match m[a]? with
      | some v => s.insert v
      | none => s) s ↔ x ∈ s ∨ ∃ a ∈ l, m[a]? = some x := by
  have hstep : ∀ (s : BTreeSet κ) (a x : κ), (x ∈ match m[a]? with
        | some v => s.insert v
        | none => s) ↔ x ∈ s ∨ m[a]? = some x := by
    intro s a x
    cases m[a]? with
    | none => simp
    | some v =>
      rw [ExtTreeSet.mem_insert, LawfulEqOrd.compare_eq_iff_eq, Option.some.injEq, or_comm]
  exact BTreeSet.mem_foldl hstep l s x

end FrankenGraph

import FrankenGraph.Library.OrderedMap

/-!
# Merging two ordered lists

Two lists in the order of their keys are merged into one. A key of both lists is taken once, from the
second list.

Results:
* `mem_overlayBy`: what the merged list holds
* `pairwise_overlayBy`: the merged list is ordered
-/

namespace FrankenGraph

open Std List

variable {α κ : Type} [Ord κ] [TransOrd κ] [LawfulEqOrd κ] (key : α → κ)

/-- A list is in the strict order of its keys. -/
def Ascending (l : List α) : Prop :=
  l.Pairwise fun a b => compare (key a) (key b) = .lt

/-- The merge of a list that starts with an element, given the merge of the rest. -/
def overlayByCons (a : α) (rest : List α → List α) : List α → List α
  | [] => a :: rest []
  | b :: r =>
    match compare (key a) (key b) with
    | .lt => a :: rest (b :: r)
    | .gt => b :: overlayByCons a rest r
    | .eq => b :: rest r

/-- Merge two ordered lists; for a key of both, the element of the second list is taken. -/
def overlayBy : List α → List α → List α
  | [] => id
  | a :: l => overlayByCons key a (overlayBy l)

variable {key} {a b c : α} {l r : List α}

omit [LawfulEqOrd κ] in
theorem ne_of_compare_lt {x y : κ} (h : compare x y = .lt) : x ≠ y := by
  rintro rfl
  cases h.symm.trans (@ReflCmp.compare_self κ compare _ x)

omit [LawfulEqOrd κ] in
/-- What is before the first element of an ordered list is before all of them. -/
theorem Ascending.lt_of_mem (hr : Ascending key (b :: r)) (h : compare (key a) (key b) = .lt)
    (hc : c ∈ b :: r) : compare (key a) (key c) = .lt := by
  rcases mem_cons.mp hc with rfl | hmem
  · exact h
  · exact TransCmp.lt_trans h ((pairwise_cons.mp hr).1 c hmem)

/-- Membership in a merge whose first elements are compared. -/
theorem mem_overlayBy (hl : Ascending key l) (hr : Ascending key r) :
    c ∈ overlayBy key l r ↔ c ∈ r ∨ c ∈ l ∧ ∀ b ∈ r, key b ≠ key c := by
  induction l generalizing r with
  | nil => simp [overlayBy]
  | cons a l ihl =>
    obtain ⟨ha, hl'⟩ := pairwise_cons.mp hl
    induction r with
    | nil =>
      have hrest := ihl hl' (r := []) List.Pairwise.nil
      simp only [not_mem_nil, false_or, IsEmpty.forall_iff, implies_true, and_true] at hrest
      change c ∈ a :: overlayBy key l [] ↔ _
      simp [hrest]
    | cons b r ihr =>
      obtain ⟨-, hr'⟩ := pairwise_cons.mp hr
      change c ∈ (match compare (key a) (key b) with
        | .lt => a :: overlayBy key l (b :: r)
        | .gt => b :: overlayBy key (a :: l) r
        | .eq => b :: overlayBy key l r) ↔ _
      cases hcompare : compare (key a) (key b) with
      | lt =>
        -- The first element is before everything in the second list.
        have hbefore : ∀ b' ∈ b :: r, key b' ≠ key a := by
          intro b' hb' heq
          exact ne_of_compare_lt (hr.lt_of_mem hcompare hb') heq.symm
        have hrest := ihl hl' hr
        dsimp only
        rw [mem_cons, hrest, mem_cons (b := a)]
        constructor
        · rintro (rfl | hmem | ⟨hmem, hne⟩)
          · exact .inr ⟨.inl rfl, hbefore⟩
          · exact .inl hmem
          · exact .inr ⟨.inr hmem, hne⟩
        · rintro (hmem | ⟨rfl | hmem, hne⟩)
          · exact .inr (.inl hmem)
          · exact .inl rfl
          · exact .inr (.inr ⟨hmem, hne⟩)
      | gt =>
        have hlt : compare (key b) (key a) = .lt := OrientedCmp.gt_iff_lt.mp hcompare
        have hbefore : ∀ c ∈ a :: l, key b ≠ key c := by
          intro c hc
          exact ne_of_compare_lt (hl.lt_of_mem hlt hc)
        dsimp only
        rw [mem_cons, ihr hr', mem_cons (b := b)]
        simp only [forall_mem_cons]
        constructor
        · rintro (rfl | hmem | ⟨hmem, hne⟩)
          · exact .inl (.inl rfl)
          · exact .inl (.inr hmem)
          · exact .inr ⟨hmem, hbefore c hmem, hne⟩
        · rintro ((rfl | hmem) | ⟨hmem, -, hne⟩)
          · exact .inl rfl
          · exact .inr (.inl hmem)
          · exact .inr (.inr ⟨hmem, hne⟩)
      | eq =>
        have hkey : key a = key b := LawfulEqOrd.compare_eq_iff_eq.mp hcompare
        have hafter : ∀ c ∈ l, key b ≠ key c := by
          intro c hc
          rw [← hkey]
          exact ne_of_compare_lt (ha c hc)
        dsimp only
        rw [mem_cons, ihl hl' hr', mem_cons (b := b), mem_cons (b := a)]
        simp only [forall_mem_cons]
        constructor
        · rintro (rfl | hmem | ⟨hmem, hne⟩)
          · exact .inl (.inl rfl)
          · exact .inl (.inr hmem)
          · exact .inr ⟨.inr hmem, hafter c hmem, hne⟩
        · rintro ((rfl | hmem) | ⟨rfl | hmem, hnot, hne⟩)
          · exact .inl rfl
          · exact .inr (.inl hmem)
          · exact absurd hkey.symm hnot
          · exact .inr (.inr ⟨hmem, hne⟩)

theorem mem_of_mem_overlayBy (hl : Ascending key l) (hr : Ascending key r)
    (hc : c ∈ overlayBy key l r) : c ∈ l ∨ c ∈ r := by
  rcases (mem_overlayBy hl hr).mp hc with hmem | ⟨hmem, -⟩
  · exact .inr hmem
  · exact .inl hmem

theorem pairwise_overlayBy (hl : Ascending key l) (hr : Ascending key r) :
    Ascending key (overlayBy key l r) := by
  induction l generalizing r with
  | nil => exact hr
  | cons a l ihl =>
    obtain ⟨ha, hl'⟩ := pairwise_cons.mp hl
    induction r with
    | nil =>
      refine pairwise_cons.mpr ⟨fun c hc => ?_, ihl hl' List.Pairwise.nil⟩
      rcases mem_of_mem_overlayBy hl' List.Pairwise.nil hc with hmem | hmem
      · exact ha c hmem
      · exact absurd hmem not_mem_nil
    | cons b r ihr =>
      obtain ⟨hb, hr'⟩ := pairwise_cons.mp hr
      change Ascending key (match compare (key a) (key b) with
        | .lt => a :: overlayBy key l (b :: r)
        | .gt => b :: overlayBy key (a :: l) r
        | .eq => b :: overlayBy key l r)
      cases hcompare : compare (key a) (key b) with
      | lt =>
        refine pairwise_cons.mpr ⟨fun c hc => ?_, ihl hl' hr⟩
        rcases mem_of_mem_overlayBy hl' hr hc with hmem | hmem
        · exact ha c hmem
        · exact hr.lt_of_mem hcompare hmem
      | gt =>
        have hlt : compare (key b) (key a) = .lt := OrientedCmp.gt_iff_lt.mp hcompare
        refine pairwise_cons.mpr ⟨fun c hc => ?_, ihr hr'⟩
        rcases mem_of_mem_overlayBy hl hr' hc with hmem | hmem
        · exact hl.lt_of_mem hlt hmem
        · exact hb c hmem
      | eq =>
        have hkey : key a = key b := LawfulEqOrd.compare_eq_iff_eq.mp hcompare
        refine pairwise_cons.mpr ⟨fun c hc => ?_, ihl hl' hr'⟩
        rcases mem_of_mem_overlayBy hl' hr' hc with hmem | hmem
        · rw [← hkey]
          exact ha c hmem
        · exact hb c hmem

omit [LawfulEqOrd κ] in
theorem Ascending.nodup_map (h : Ascending key l) : (l.map key).Nodup := by
  rw [List.Nodup, pairwise_map]
  exact h.imp ne_of_compare_lt

omit [LawfulEqOrd κ] in
/-- The entries of a map are in the order of their keys. -/
theorem BTreeMap.ascending_toList {ν : Type} (m : BTreeMap κ ν) : Ascending Prod.fst m.toList :=
  ExtTreeMap.ordered_keys_toList

end FrankenGraph

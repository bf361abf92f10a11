import FrankenGraph.Library.Pointwise

/-!
# Binary relations kept by rows

A relation on an ordered type, kept as a map from each left element to the set of its right
elements. A row that becomes empty is removed.

Results:
* `Adjacency.has_link`, `Adjacency.has_unlink`, `Adjacency.has_extend`: the pairs after a change
* `Adjacency.has_foldl_link`, `Adjacency.has_foldl_unlink`: the pairs after a loop of changes
-/

namespace FrankenGraph

open Std

/-- A relation kept by rows. -/
abbrev Adjacency (V : Type) [Ord V] [TransOrd V] := BTreeMap V (BTreeSet V)

namespace Adjacency

variable {V : Type} [Ord V] [TransOrd V]

/-- The right elements of `a`. -/
def row (rel : Adjacency V) (a : V) : BTreeSet V :=
  (rel[a]?).getD ∅

/-- The relation holds between `a` and `b`. -/
def Has (rel : Adjacency V) (a b : V) : Prop :=
  b ∈ rel.row a

instance (rel : Adjacency V) (a b : V) : Decidable (rel.Has a b) :=
  inferInstanceAs (Decidable (b ∈ rel.row a))

/-- Add a pair, with a new row when `a` has none. -/
def link (rel : Adjacency V) (a b : V) : Adjacency V :=
  rel.insert a ((rel.row a).insert b)

/-- Remove a pair, and the row when it becomes empty. -/
def unlink (rel : Adjacency V) (a b : V) : Adjacency V :=
  match rel[a]? with
  | none => rel
  | some row =>
    let row := row.erase b
    if row.isEmpty then rel.erase a else rel.insert a row

/-- Add the rows of another relation. -/
def extend (rel other : Adjacency V) : Adjacency V :=
  other.toList.foldl
    (fun rel e => rel.insert e.1 (e.2.toList.foldl (fun row b => row.insert b) (rel.row e.1))) rel

variable [LawfulEqOrd V] [DecidableEq V] {rel other : Adjacency V} {a b x y : V}

omit [LawfulEqOrd V] [DecidableEq V] in
@[simp]
theorem not_has_empty : ¬ (∅ : Adjacency V).Has x y := by
  rw [Has, row, ExtTreeMap.getElem?_empty, Option.getD_none]
  exact ExtTreeSet.not_mem_empty

theorem row_insert {r : BTreeSet V} : row (rel.insert a r) x = if a = x then r else rel.row x := by
  rw [row, BTreeMap.lookup_insert]
  split_ifs <;> rfl

@[simp]
theorem has_link : (rel.link a b).Has x y ↔ rel.Has x y ∨ a = x ∧ b = y := by
  rw [Has, link, row_insert]
  split_ifs with hx
  · subst hx
    rw [ExtTreeSet.mem_insert, LawfulEqOrd.compare_eq_iff_eq, Has]
    simp only [true_and]
    exact or_comm
  · simp only [hx, false_and, or_false]
    rfl

theorem mem_row_unlink : y ∈ (rel.unlink a b).row x ↔
    if a = x then y ∈ (rel.row x).erase b else y ∈ rel.row x := by
  unfold unlink
  by_cases hx : a = x
  · subst hx
    rw [if_pos rfl]
    unfold row
    cases hrow : rel[a]? with
    | none => simp [hrow]
    | some r =>
      dsimp only [Option.getD_some]
      split_ifs with hempty
      · rw [BTreeMap.lookup_erase, if_pos rfl, Option.getD_none, ExtTreeSet.isEmpty_iff.mp hempty]
      · rw [BTreeMap.lookup_insert, if_pos rfl, Option.getD_some]
  · rw [if_neg hx]
    unfold row
    cases rel[a]? with
    | none => rfl
    | some r =>
      dsimp only
      split_ifs
      · rw [BTreeMap.lookup_erase, if_neg hx]
      · rw [BTreeMap.lookup_insert, if_neg hx]

@[simp]
theorem has_unlink : (rel.unlink a b).Has x y ↔ rel.Has x y ∧ ¬ (a = x ∧ b = y) := by
  rw [Has, mem_row_unlink]
  split_ifs with hx
  · rw [ExtTreeSet.mem_erase, Ne, LawfulEqOrd.compare_eq_iff_eq, and_comm, Has]
    simp only [hx, true_and]
  · simp only [hx, false_and, not_false_eq_true, and_true]
    rfl

@[simp]
theorem has_extend : (rel.extend other).Has x y ↔ rel.Has x y ∨ other.Has x y := by
  have hloop := BTreeMap.foldl_pointwise
    (fun _ (r : BTreeSet V) (old : BTreeSet V) => r.toList.foldl (fun row b => row.insert b) old)
    (fun (rel : Adjacency V) (e : V × BTreeSet V) (x : V) =>
      (row_insert : row (rel.insert e.1
        (e.2.toList.foldl (fun row b => row.insert b) (rel.row e.1))) x = _).trans (by
          split_ifs with hx
          · rw [hx]
          · rfl)) other rel x
  rw [Has, extend, hloop, Has, Has, row, row]
  cases other[x]? with
  | none => simp
  | some r =>
    rw [Option.elim_some, BTreeSet.mem_foldl_insert]
    simp

/-! ## Loops -/

theorem has_foldl_link {α : Type} (pair : α → V × V) (l : List α) :
    (l.foldl (fun rel e => rel.link (pair e).1 (pair e).2) rel).Has x y ↔
      rel.Has x y ∨ ∃ e ∈ l, pair e = (x, y) := by
  induction l generalizing rel with
  | nil => simp
  | cons e l ih =>
    rw [List.foldl_cons, ih, has_link, or_assoc]
    simp only [List.mem_cons, exists_eq_or_imp, Prod.ext_iff]

theorem has_foldl_unlink {α : Type} (pair : α → V × V) (l : List α) :
    (l.foldl (fun rel e => rel.unlink (pair e).1 (pair e).2) rel).Has x y ↔
      rel.Has x y ∧ ∀ e ∈ l, pair e ≠ (x, y) := by
  induction l generalizing rel with
  | nil => simp
  | cons e l ih =>
    rw [List.foldl_cons, ih, has_unlink, and_assoc]
    simp only [List.mem_cons, forall_eq_or_imp, Prod.ext_iff, Ne]

end Adjacency

end FrankenGraph

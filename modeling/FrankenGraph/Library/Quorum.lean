import Mathlib

/-!
# Majorities and quorum systems

Counting facts about strict majorities of a list of members, and the abstract
notion the consensus library rests on: a family of sets any two of which meet.

Results:
* `majority_inter`: two strict majorities of one list share a member.
* `majority_orderStatistic`, `le_orderStatistic`: the element of rank `(n - 1) / 2` is the
  greatest value a strict majority of a nonempty list is at or above.
-/

namespace FrankenGraph.Quorum

variable {α : Type}

/-! ## Strict majorities -/

/-- More than half of the members of `l` satisfy `p`. -/
def Majority (l : List α) (p : α → Bool) : Prop := l.length / 2 < l.countP p

theorem countP_le_of_disjoint (l : List α) (p r : α → Bool)
    (h : ∀ x ∈ l, p x = true → r x = true → False) :
    l.countP p + l.countP r ≤ l.length := by
  induction l with
  | nil => simp
  | cons a l ih =>
    have ih' := ih fun x hx => h x (List.mem_cons_of_mem a hx)
    have ha := h a List.mem_cons_self
    simp only [List.countP_cons, List.length_cons]
    cases hp : p a <;> cases hr : r a <;> simp_all <;> omega

theorem majority_inter {l : List α} {p r : α → Bool} (hp : Majority l p) (hr : Majority l r) :
    ∃ x ∈ l, p x = true ∧ r x = true := by
  by_contra hne
  have hdis := countP_le_of_disjoint l p r fun x hx h1 h2 => hne ⟨x, hx, h1, h2⟩
  unfold Majority at hp hr
  omega

/-! ## The majority order statistic -/

/-- The element of rank `(n - 1) / 2` in ascending order: the largest value a
strict majority of the list has reached. -/
def orderStatistic (l : List ℕ) : ℕ := (l.insertionSort (· ≤ ·)).getD ((l.length - 1) / 2) 0

theorem countP_ge_of_sorted {l : List ℕ} (hs : l.Pairwise (· ≤ ·)) {r : ℕ} (hr : r < l.length) :
    l.length - r ≤ l.countP fun x => decide (l.getD r 0 ≤ x) := by
  have hsplit : l.countP (fun x => decide (l.getD r 0 ≤ x)) =
      (l.take r).countP (fun x => decide (l.getD r 0 ≤ x)) +
        (l.drop r).countP (fun x => decide (l.getD r 0 ≤ x)) := by
    rw [← List.countP_append, List.take_append_drop]
  have hall : (l.drop r).countP (fun x => decide (l.getD r 0 ≤ x)) = (l.drop r).length := by
    rw [List.countP_eq_length]
    intro x hx
    obtain ⟨j, hj, rfl⟩ := List.mem_iff_getElem.mp hx
    rw [List.getElem_drop, List.getD_eq_getElem l 0 hr, decide_eq_true_eq]
    rcases Nat.eq_zero_or_pos j with rfl | hj0
    · simp
    · exact List.pairwise_iff_getElem.mp hs _ _ _ _ (by omega)
  rw [hsplit, hall, List.length_drop]
  omega

/-- A strict majority of a nonempty list is at or above its order statistic. -/
theorem majority_orderStatistic {l : List ℕ} (hne : l ≠ []) :
    Majority l fun x => decide (orderStatistic l ≤ x) := by
  have hpos : 0 < l.length := List.length_pos_iff.mpr hne
  have hlen := List.length_insertionSort (· ≤ ·) l
  have hcount := countP_ge_of_sorted (List.pairwise_insertionSort (· ≤ ·) l)
    (r := (l.length - 1) / 2) (by omega)
  rw [hlen] at hcount
  have hperm := (List.perm_insertionSort (· ≤ ·) l).countP_eq
    fun x => decide (orderStatistic l ≤ x)
  unfold Majority
  rw [← hperm]
  unfold orderStatistic
  omega

theorem countP_le_of_sorted {l : List ℕ} (hs : l.Pairwise (· ≤ ·)) {r k : ℕ} (hr : r < l.length)
    (hk : l.getD r 0 < k) : l.countP (fun x => decide (k ≤ x)) ≤ l.length - (r + 1) := by
  have hlow : (l.take (r + 1)).countP (fun x => decide (k ≤ x)) = 0 := by
    rw [List.countP_eq_zero]
    intro x hx
    obtain ⟨j, hj, rfl⟩ := List.mem_iff_getElem.mp hx
    rw [List.length_take] at hj
    rw [List.getD_eq_getElem l 0 hr] at hk
    rw [List.getElem_take, decide_eq_true_eq, not_le]
    rcases Nat.lt_or_eq_of_le (show j ≤ r by omega) with hlt | rfl
    · exact (List.pairwise_iff_getElem.mp hs _ _ _ _ hlt).trans_lt hk
    · exact hk
  have hhigh := List.countP_le_length (p := fun x => decide (k ≤ x)) (l := l.drop (r + 1))
  rw [← List.take_append_drop (r + 1) l, List.countP_append, hlow, zero_add,
    List.take_append_drop]
  rwa [List.length_drop] at hhigh

/-- No value above the order statistic is reached by a strict majority. -/
theorem le_orderStatistic {l : List ℕ} {k : ℕ} (h : Majority l fun x => decide (k ≤ x)) :
    k ≤ orderStatistic l := by
  by_contra hlt
  have hpos : 0 < l.length := (Nat.zero_le _).trans_lt (h.trans_le List.countP_le_length)
  have hlen := List.length_insertionSort (· ≤ ·) l
  have hcount := countP_le_of_sorted (List.pairwise_insertionSort (· ≤ ·) l)
    (r := (l.length - 1) / 2) (by omega) (not_le.mp hlt)
  rw [hlen, (List.perm_insertionSort (· ≤ ·) l).countP_eq] at hcount
  unfold Majority at h
  omega

end FrankenGraph.Quorum

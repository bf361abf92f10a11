import Mathlib.Data.Finset.Card
import Mathlib.Order.Bounds.Basic

/-!
# Core numbers

The core number of a vertex of a simple graph is the greatest `k` for which it lies in a set of
vertices where every member has at least `k` neighbours in the set. Removing vertices of least degree
one after the other finds it, as long as no degree is lowered below that of the vertex just removed.

Results:
* `IsCoreNumber.unique`: a vertex has one core number
* `Shelled.start`, `Shelled.pop`: the invariant of the removals; the removed vertex has its degree as
  core number
* `isCoreNumber_congr`: core numbers outside a part that no edge enters do not depend on that part
-/

namespace FrankenGraph

open Finset

variable {V : Type} {adj adj' : V → V → Prop}

open Classical in
/-- The number of neighbours of a vertex in a set. -/
noncomputable def degreeIn (adj : V → V → Prop) (S : Finset V) (v : V) : Nat :=
  (S.filter (adj v)).card

/-- Every member of a set has at least `k` neighbours in it. -/
def MinDegree (adj : V → V → Prop) (k : Nat) (S : Finset V) : Prop :=
  ∀ u ∈ S, k ≤ degreeIn adj S u

/-- A vertex lies in a set where every member has at least `k` neighbours. -/
def InCore (adj : V → V → Prop) (k : Nat) (v : V) : Prop :=
  ∃ S : Finset V, v ∈ S ∧ MinDegree adj k S

/-- The greatest `k` for which a vertex lies in such a set. -/
def IsCoreNumber (adj : V → V → Prop) (v : V) (k : Nat) : Prop :=
  IsGreatest {k | InCore adj k v} k

variable {v : V}

theorem IsCoreNumber.unique {k k' : Nat} (h : IsCoreNumber adj v k)
    (h' : IsCoreNumber adj v k') : k = k' :=
  IsGreatest.unique h h'

variable {S : Finset V}

/-- A vertex with `k` neighbours in a set keeps them in a set that holds all of them. -/
theorem degreeIn_mono {T : Finset V} (h : ∀ u ∈ S, adj v u → u ∈ T) :
    degreeIn adj S v ≤ degreeIn adj T v := by
  classical
  refine card_le_card fun u hu => ?_
  rw [mem_filter] at hu ⊢
  exact ⟨h u hu.1 hu.2, hu.2⟩

theorem degreeIn_erase_of_adj [DecidableEq V] {u : V} (hv : v ∈ S) (huv : adj u v) :
    degreeIn adj (S.erase v) u = degreeIn adj S u - 1 := by
  classical
  unfold degreeIn
  rw [filter_erase, card_erase_of_mem (mem_filter.mpr ⟨hv, huv⟩)]

theorem degreeIn_erase_of_not_adj [DecidableEq V] {u : V} (huv : ¬ adj u v) :
    degreeIn adj (S.erase v) u = degreeIn adj S u := by
  classical
  unfold degreeIn
  rw [filter_erase, erase_eq_of_notMem]
  rw [mem_filter]
  exact fun hmem => huv hmem.2

/-! ## Removing vertices of least degree -/

/-- Where the removals stand: the degree of the vertex removed last, the vertices that are left and
their degrees, none of which is lowered below that of the vertex removed last. -/
structure Shelled (adj : V → V → Prop) (all : Finset V) (shell : Nat) (left : Finset V)
    (degree : V → Nat) : Prop where
  subset : left ⊆ all
  degree_eq : ∀ u ∈ left, degree u = max shell (degreeIn adj left u)
  dense : ∃ S : Finset V, left ⊆ S ∧ MinDegree adj shell S
  kept : ∀ (S : Finset V) (k : Nat), shell < k → MinDegree adj k S → ∀ u ∈ S, u ∈ all → u ∈ left

theorem Shelled.start {all : Finset V} {degree : V → Nat}
    (hdegree : ∀ u ∈ all, degree u = degreeIn adj all u) : Shelled adj all 0 all degree where
  subset := Finset.Subset.refl all
  degree_eq u hu := by rw [hdegree u hu, Nat.zero_max]
  dense := ⟨all, Finset.Subset.refl all, fun _ _ => Nat.zero_le _⟩
  kept _ _ _ _ _ _ hall := hall

section Pop

variable {all left : Finset V} {shell : Nat} {degree : V → Nat}
  (h : Shelled adj all shell left degree) {v : V} (hv : v ∈ left)
  (hleast : ∀ u ∈ left, degree v ≤ degree u)

include h hv

theorem Shelled.shell_le : shell ≤ degree v := by
  rw [h.degree_eq v hv]
  exact Nat.le_max_left _ _

include hleast

/-- The vertices that are left, or a set that holds them, all have the least degree. -/
theorem Shelled.exists_dense : ∃ S : Finset V, left ⊆ S ∧ MinDegree adj (degree v) S := by
  rcases Nat.eq_or_lt_of_le (h.shell_le hv) with heq | hlt
  · exact heq ▸ h.dense
  · refine ⟨left, Finset.Subset.refl left, fun u hu => ?_⟩
    have hle := hleast u hu
    rw [h.degree_eq u hu] at hle
    omega

variable (hclosed : ∀ a b, a ∈ all → adj a b → b ∈ all)

include hclosed

omit hleast in
/-- A denser set does not hold a vertex of least degree. -/
theorem Shelled.notMem_of_denser {S : Finset V} {k : Nat} (hk : degree v < k)
    (hS : MinDegree adj k S) : v ∉ S := by
  intro hvS
  have hin : ∀ u ∈ S, adj v u → u ∈ left := fun u hu hvu =>
    h.kept S k (Nat.lt_of_le_of_lt (h.shell_le hv) hk) hS u hu (hclosed v u (h.subset hv) hvu)
  have hle : degreeIn adj S v ≤ degreeIn adj left v := degreeIn_mono hin
  have hS' := hS v hvS
  have hdegree := h.degree_eq v hv
  omega

/-- The removed vertex has its degree as core number. -/
theorem Shelled.isCoreNumber : IsCoreNumber adj v (degree v) := by
  constructor
  · obtain ⟨S, hsub, hS⟩ := h.exists_dense hv hleast
    exact ⟨S, hsub hv, hS⟩
  · rintro k ⟨S, hvS, hS⟩
    by_contra hk
    exact h.notMem_of_denser hv hclosed (Nat.lt_of_not_le hk) hS hvS

/-- Removing a vertex of least degree lowers the greater degrees of its neighbours. -/
theorem Shelled.pop [DecidableEq V] (hsymm : ∀ a b, adj a b → adj b a) {degree' : V → Nat}
    (hnear : ∀ u ∈ left.erase v, adj v u → degree v < degree u → degree' u = degree u - 1)
    (hfar : ∀ u ∈ left.erase v, ¬ (adj v u ∧ degree v < degree u) → degree' u = degree u) :
    Shelled adj all (degree v) (left.erase v) degree' where
  subset u hu := h.subset (mem_of_mem_erase hu)
  degree_eq u hu := by
    have hul := mem_of_mem_erase hu
    have hdegree := h.degree_eq u hul
    have hshell := h.shell_le hv
    have hle := hleast u hul
    by_cases hadj : adj v u
    · rw [degreeIn_erase_of_adj hv (hsymm v u hadj)]
      by_cases hlt : degree v < degree u
      · rw [hnear u hu hadj hlt]
        omega
      · rw [hfar u hu fun hboth => hlt hboth.2]
        omega
    · rw [degreeIn_erase_of_not_adj fun huv => hadj (hsymm u v huv),
        hfar u hu fun hboth => hadj hboth.1]
      omega
  dense := by
    obtain ⟨S, hsub, hS⟩ := h.exists_dense hv hleast
    exact ⟨S, fun u hu => hsub (mem_of_mem_erase hu), hS⟩
  kept S k hk hS u huS hall := by
    refine mem_erase.mpr ⟨?_, ?_⟩
    · rintro rfl
      exact h.notMem_of_denser hv hclosed hk hS huS
    · exact h.kept S k (Nat.lt_of_le_of_lt (h.shell_le hv) hk) hS u huS hall

end Pop

/-! ## Parts that no edge enters -/

/-- A vertex outside a part that no edge enters lies in the same cores when only that part
changes. -/
theorem InCore.of_outside {inside : V → Prop} (hout : ∀ a b, ¬ inside a → adj a b → ¬ inside b)
    (hsame : ∀ a b, ¬ inside a → adj a b → adj' a b) {k : Nat} (hv : ¬ inside v)
    (h : InCore adj k v) : InCore adj' k v := by
  classical
  obtain ⟨S, hvS, hS⟩ := h
  refine ⟨S.filter fun u => ¬ inside u, mem_filter.mpr ⟨hvS, hv⟩, fun u hu => ?_⟩
  obtain ⟨huS, hu⟩ := mem_filter.mp hu
  refine le_trans (hS u huS) (card_le_card fun w hw => ?_)
  obtain ⟨hwS, huw⟩ := mem_filter.mp hw
  exact mem_filter.mpr
    ⟨mem_filter.mpr ⟨hwS, hout u w hu huw⟩, hsame u w hu huw⟩

/-- The core number outside such a part does not change. -/
theorem isCoreNumber_congr {inside : V → Prop} (hout : ∀ a b, ¬ inside a → adj a b → ¬ inside b)
    (hsame : ∀ a b, ¬ inside a → (adj a b ↔ adj' a b)) (hv : ¬ inside v) (k : Nat) :
    IsCoreNumber adj v k ↔ IsCoreNumber adj' v k := by
  have hcore : ∀ k, InCore adj k v ↔ InCore adj' k v := fun k =>
    ⟨InCore.of_outside hout (fun a b ha => (hsame a b ha).mp) hv,
      InCore.of_outside (fun a b ha hab => hout a b ha ((hsame a b ha).mpr hab))
        (fun a b ha => (hsame a b ha).mpr) hv⟩
  unfold IsCoreNumber
  simp only [hcore]

end FrankenGraph

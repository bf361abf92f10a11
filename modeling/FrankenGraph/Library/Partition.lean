import FrankenGraph.Library.Adjacency
import FrankenGraph.Library.Loop

/-!
# Partition of a set into connected components

A set is cut into the components of a symmetric relation by repeated search from its least element
that is left. A search takes what it finds out of the set, so that each element is found once.

Results:
* `explore_spec`: a search finds what is connected to its root
* `partition_spec`: every element is labelled by the least element of its
  component, and the groups are the components
-/

namespace FrankenGraph

open BTreeSet Relation.ReflTransGen Partition List

open Std (ExtTreeMap ExtTreeSet TransOrd LawfulEqOrd TransCmp)

variable {V : Type} [LinearOrder V]

/-- The least element of a set, as `pop_first` finds it. -/
def BTreeSet.first? {α : Type} [Ord α] [Std.TransOrd α] (s : BTreeSet α) : Option α :=
  s.toList.head?

section First

variable {α : Type} [Ord α] [Std.TransOrd α] {s : BTreeSet α}

theorem BTreeSet.first?_eq_some [Std.LawfulEqOrd α] {a : α} (h : s.first? = some a) :
    a ∈ s ∧ ∀ b ∈ s, (compare a b).isLE := by
  rw [first?, ← ExtTreeSet.min?_eq_head?_toList] at h
  exact ExtTreeSet.min?_eq_some_iff_mem_and_forall.mp h

theorem BTreeSet.notMem_of_first?_eq_none (h : s.first? = none) (a : α) : a ∉ s := by
  rw [first?, ← ExtTreeSet.min?_eq_head?_toList, ExtTreeSet.min?_eq_none_iff] at h
  rw [h]
  exact ExtTreeSet.not_mem_empty

end First

/-- Where a search stands: what is left to find, the labels so far, the group found so far and the
stack of elements whose neighbours are not yet looked at. -/
structure Search (V : Type) [LinearOrder V] where
  remaining : BTreeSet V
  labels : BTreeMap V V
  group : BTreeSet V
  pending : List V

/-- Take the elements of a list out of what remains and push them. -/
def discover (found : List V) (remaining : BTreeSet V) (pending : List V) : BTreeSet V × List V :=
  found.foldl (fun s v => if v ∈ s.1 then (s.1.erase v, v :: s.2) else s) (remaining, pending)

/-- One round of a search. -/
def Search.visit (neighbors : V → List V) (root : V) (s : Search V) : Option (Search V) :=
  match s.pending with
  | [] => none
  | v :: rest =>
    let found := discover (neighbors v) s.remaining rest
    some { remaining := found.1, pending := found.2, labels := s.labels.insert v root,
           group := s.group.insert v }

/-- Search from a root. -/
def explore (neighbors : V → List V) (root : V) (remaining : BTreeSet V) (labels : BTreeMap V V) :
    Search V :=
  iterate (Search.visit neighbors root) (remaining.size + 1)
    { remaining, labels, group := ∅, pending := [root] }

/-- Where a partition stands. -/
structure Partition (V : Type) [LinearOrder V] where
  remaining : BTreeSet V
  labels : BTreeMap V V
  members : Adjacency V

/-- Search from the least element that is left. -/
def Partition.next (neighbors : V → List V) (p : Partition V) : Option (Partition V) :=
  match p.remaining.first? with
  | none => none
  | some root =>
    let s := explore neighbors root (p.remaining.erase root) p.labels
    some { remaining := s.remaining, labels := s.labels, members := p.members.insert root s.group }

/-- Cut a set into components. -/
def partition (neighbors : V → List V) (remaining : BTreeSet V) : Partition V :=
  iterate (Partition.next neighbors) remaining.size { remaining, labels := ∅, members := ∅ }

/-! ## One search -/

variable {a b : V}

theorem isLE_compare_iff : (compare a b).isLE ↔ a ≤ b := by
  rw [← compare_le_iff_le]
  cases compare a b <;> simp

variable {s : BTreeSet V}

theorem BTreeSet.mem_erase_iff : b ∈ s.erase a ↔ a ≠ b ∧ b ∈ s := by
  rw [ExtTreeSet.mem_erase, Ne, LawfulEqOrd.compare_eq_iff_eq]

theorem BTreeSet.mem_insert_iff : b ∈ s.insert a ↔ a = b ∨ b ∈ s := by
  rw [ExtTreeSet.mem_insert, LawfulEqOrd.compare_eq_iff_eq]

theorem BTreeSet.size_erase_of_mem (ha : a ∈ s) : (s.erase a).size + 1 = s.size := by
  have hpos : s.size ≠ 0 := by
    rw [Ne, ← ExtTreeSet.eq_empty_iff_size_eq_zero]
    rintro rfl
    exact ExtTreeSet.not_mem_empty ha
  rw [ExtTreeSet.size_erase, ExtTreeSet.contains_iff_mem.mpr ha, if_pos rfl]
  omega

theorem discover_spec (found : List V) (remaining : BTreeSet V) (pending : List V) :
    (∀ v, v ∈ (discover found remaining pending).1 ↔ v ∈ remaining ∧ v ∉ found) ∧
      (∀ v, v ∈ (discover found remaining pending).2 ↔ v ∈ pending ∨ v ∈ remaining ∧ v ∈ found) ∧
      (discover found remaining pending).1.size + (discover found remaining pending).2.length =
        remaining.size + pending.length := by
  unfold discover
  induction found generalizing remaining pending with
  | nil => simp
  | cons u found ih =>
    rw [foldl_cons]
    by_cases hu : u ∈ remaining
    · obtain ⟨h₁, h₂, h₃⟩ := ih (remaining.erase u) (u :: pending)
      have hsize := size_erase_of_mem hu
      rw [if_pos hu]
      refine ⟨fun v => ?_, fun v => ?_, ?_⟩
      · rw [h₁, mem_erase_iff, mem_cons]
        tauto
      · rw [h₂, mem_erase_iff, mem_cons, mem_cons]
        by_cases huv : v = u
        · subst huv
          simp [hu]
        · simp [huv, Ne.symm huv]
      · rw [h₃, length_cons]
        omega
    · obtain ⟨h₁, h₂, h₃⟩ := ih remaining pending
      rw [if_neg hu]
      refine ⟨fun v => ?_, fun v => ?_, h₃⟩
      · rw [h₁, mem_cons]
        constructor
        · rintro ⟨hv, hnot⟩
          refine ⟨hv, ?_⟩
          rintro (rfl | hfound)
          · exact hu hv
          · exact hnot hfound
        · tauto
      · rw [h₂, mem_cons]
        constructor
        · tauto
        · rintro (hp | ⟨hv, rfl | hfound⟩)
          · exact .inl hp
          · exact absurd hv hu
          · exact .inr ⟨hv, hfound⟩

section Spec

variable {neighbors : V → List V}

/-- Two elements are connected. -/
def Connected (neighbors : V → List V) : V → V → Prop :=
  Relation.ReflTransGen fun a b => b ∈ neighbors a

omit [LinearOrder V] in
theorem connected_congr {f g : V → List V} (hfg : ∀ a b, b ∈ f a ↔ b ∈ g a) :
    Connected f = Connected g := by
  unfold Connected
  simp only [hfg]

/-- What holds during a search from `root` that may find the elements of `start`. -/
structure Search.Inv (neighbors : V → List V) (root : V) (start : BTreeSet V)
    (labels : BTreeMap V V) (s : Search V) : Prop where
  connected : ∀ v, v ∈ s.group ∨ v ∈ s.pending → Connected neighbors root v
  remaining_iff : ∀ v, v ∈ s.remaining ↔ v ∈ start ∧ ¬ (v ∈ s.group ∨ v ∈ s.pending)
  closed : ∀ v ∈ s.group, ∀ u ∈ neighbors v, u ∉ s.remaining
  labels_eq : ∀ v, s.labels[v]? = if v ∈ s.group then some root else labels[v]?
  found : root ∈ s.group ∨ root ∈ s.pending
  inside : ∀ v, v ∈ s.group ∨ v ∈ s.pending → v = root ∨ v ∈ start

variable {start : BTreeSet V}

/-- A round keeps the invariant, and each element is pushed once. -/
theorem Search.Inv.visit {root : V} {labels : BTreeMap V V} {s s' : Search V}
    (h : s.Inv neighbors root start labels) (hstep : s.visit neighbors root = some s') :
    s'.Inv neighbors root start labels ∧
      s'.remaining.size + s'.pending.length < s.remaining.size + s.pending.length := by
  unfold Search.visit at hstep
  cases hpending : s.pending with
  | nil =>
    rw [hpending] at hstep
    cases hstep
  | cons v rest =>
    rw [hpending] at hstep
    dsimp only at hstep
    obtain ⟨h₁, h₂, h₃⟩ := discover_spec (neighbors v) s.remaining rest
    generalize discover (neighbors v) s.remaining rest = found at h₁ h₂ h₃ hstep
    cases hstep
    have hv : v ∈ s.group ∨ v ∈ s.pending := .inr (hpending ▸ List.mem_cons_self)
    have hrest : ∀ u ∈ rest, u ∈ s.pending := fun u hu => hpending ▸ List.mem_cons_of_mem _ hu
    have hfound : ∀ u, u ∈ s.group ∨ u ∈ s.pending ↔ u ∈ s.group.insert v ∨ u ∈ rest := by
      intro u
      rw [BTreeSet.mem_insert_iff, hpending, List.mem_cons, eq_comm]
      tauto
    refine ⟨⟨?_, ?_, ?_, ?_, ?_, ?_⟩, ?_⟩
    · intro u hu
      dsimp only at hu
      rw [h₂, ← or_assoc, ← hfound] at hu
      rcases hu with hu | ⟨-, hu⟩
      · exact h.connected u hu
      · exact (h.connected v hv).tail hu
    · intro u
      dsimp only
      rw [h₁, h₂, h.remaining_iff, ← or_assoc, ← hfound]
      tauto
    · intro u hu w hw hmem
      dsimp only at hu hmem
      rw [h₁] at hmem
      rcases BTreeSet.mem_insert_iff.mp hu with rfl | hu
      · exact hmem.2 hw
      · exact h.closed u hu w hw hmem.1
    · intro u
      dsimp only
      rw [BTreeMap.lookup_insert, h.labels_eq]
      simp only [BTreeSet.mem_insert_iff]
      by_cases huv : v = u
      · simp [huv]
      · simp [huv]
    · dsimp only
      rw [h₂, ← or_assoc, ← hfound]
      exact .inl h.found
    · intro u hu
      dsimp only at hu
      rw [h₂, ← or_assoc, ← hfound] at hu
      rcases hu with hu | ⟨hu, -⟩
      · exact h.inside u hu
      · exact .inr ((h.remaining_iff u).mp hu).1
    · dsimp only
      rw [h₃, List.length_cons]
      omega

/-- A search from a root finds what is connected to it, when everything that is connected to it can
be found. -/
theorem explore_spec (root : V) (start : BTreeSet V) (labels : BTreeMap V V) (hroot : root ∉ start)
    (hclosed : ∀ v, Connected neighbors root v → v = root ∨ v ∈ start) :
    (∀ v, v ∈ (explore neighbors root start labels).group ↔ Connected neighbors root v) ∧
      (∀ v, v ∈ (explore neighbors root start labels).remaining ↔
        v ∈ start ∧ ¬ Connected neighbors root v) ∧
      ∀ v, (explore neighbors root start labels).labels[v]? =
        if v ∈ (explore neighbors root start labels).group then some root else labels[v]? := by
  have hstart : Search.Inv neighbors root start labels
      { remaining := start, labels, group := ∅, pending := [root] } := by
    refine ⟨?_, ?_, ?_, ?_, ?_, ?_⟩
    · rintro v (hv | hv)
      · exact absurd hv ExtTreeSet.not_mem_empty
      · rw [mem_singleton.mp hv]
        exact refl
    · intro v
      refine ⟨fun hv => ⟨hv, ?_⟩, fun hv => hv.1⟩
      rintro (hgroup | hpending)
      · exact absurd hgroup ExtTreeSet.not_mem_empty
      · exact hroot (mem_singleton.mp hpending ▸ hv)
    · intro v hv
      exact absurd hv ExtTreeSet.not_mem_empty
    · intro v
      rw [if_neg ExtTreeSet.not_mem_empty]
    · exact .inr mem_cons_self
    · rintro v (hv | hv)
      · exact absurd hv ExtTreeSet.not_mem_empty
      · exact .inl (mem_singleton.mp hv)
  obtain ⟨hinv, hdone⟩ := iterate_spec (fun s : Search V => s.remaining.size + s.pending.length)
    (fun s s' h hstep => Search.Inv.visit h hstep) hstart
    (show start.size + 1 ≤ start.size + 1 from le_rfl)
  change Search.Inv neighbors root start labels (explore neighbors root start labels) at hinv
  change (explore neighbors root start labels).visit neighbors root = none at hdone
  generalize explore neighbors root start labels = s at hinv hdone ⊢
  have hpending : s.pending = [] := by
    unfold Search.visit at hdone
    cases hcase : s.pending with
    | nil => rfl
    | cons v rest =>
      rw [hcase] at hdone
      cases hdone
  have hgroup : ∀ v, v ∈ s.group ↔ Connected neighbors root v := by
    intro v
    refine ⟨fun hv => hinv.connected v (.inl hv), fun hv => ?_⟩
    induction hv with
    | refl =>
      rcases hinv.found with hfound | hfound
      · exact hfound
      · rw [hpending] at hfound
        cases hfound
    | @tail u w hu huw ih =>
      by_contra hnot
      have hw := hclosed w (hu.tail huw)
      rcases hw with rfl | hw
      · rcases hinv.found with hfound | hfound
        · exact hnot hfound
        · rw [hpending] at hfound
          cases hfound
      · refine hinv.closed u ih w huw ((hinv.remaining_iff w).mpr ⟨hw, ?_⟩)
        rw [hpending]
        rintro (hgroup | hnil)
        · exact hnot hgroup
        · cases hnil
  refine ⟨hgroup, fun v => ?_, hinv.labels_eq⟩
  rw [hinv.remaining_iff, hpending, hgroup]
  simp

/-! ## The whole partition -/

/-- The least element of a component. -/
def Leader (neighbors : V → List V) (v r : V) : Prop :=
  Connected neighbors v r ∧ ∀ u, Connected neighbors v u → r ≤ u

theorem Leader.unique {v r r' : V} (h : Leader neighbors v r) (h' : Leader neighbors v r') : r = r' :=
  le_antisymm (h.2 r' h'.1) (h'.2 r h.1)

omit [LinearOrder V] in
theorem Connected.symm (hsymm : ∀ a b, b ∈ neighbors a → a ∈ neighbors b) {a b : V}
    (h : Connected neighbors a b) : Connected neighbors b a := by
  induction h with
  | refl => exact refl
  | tail _ hstep ih => exact ih.head (hsymm _ _ hstep)

omit [LinearOrder V] in
/-- Outside a part that no step enters, paths do not depend on that part. -/
theorem Connected.of_outside {f g : V → List V} {inside : V → Prop}
    (hout : ∀ a b, ¬ inside a → b ∈ f a → ¬ inside b)
    (hsame : ∀ a b, ¬ inside a → b ∈ f a → b ∈ g a) {v u : V} (hv : ¬ inside v)
    (h : Connected f v u) : Connected g v u ∧ ¬ inside u := by
  induction h with
  | refl => exact ⟨refl, hv⟩
  | tail _ hbc ih => exact ⟨ih.1.tail (hsame _ _ ih.2 hbc), hout _ _ ih.2 hbc⟩

theorem BTreeSet.size_le_of_subset {s t : BTreeSet V} (h : ∀ v ∈ s, v ∈ t) : s.size ≤ t.size := by
  rw [← ExtTreeSet.length_toList, ← ExtTreeSet.length_toList]
  refine (subperm_of_subset s.nodup_toList fun v hv => ?_).length_le
  rw [ExtTreeSet.mem_toList] at hv ⊢
  exact h v hv

/-- What holds while a set is cut into components. -/
structure Partition.Inv (neighbors : V → List V) (start : BTreeSet V) (p : Partition V) : Prop where
  inside : ∀ v ∈ p.remaining, v ∈ start
  closed : ∀ v ∈ p.remaining, ∀ u, Connected neighbors v u → u ∈ p.remaining
  labels_iff : ∀ v r, p.labels[v]? = some r ↔
    (v ∈ start ∧ v ∉ p.remaining) ∧ Leader neighbors v r
  total : ∀ v ∈ start, v ∉ p.remaining → ∃ r, p.labels[v]? = some r
  members_iff : ∀ r v, p.members.Has r v ↔ p.labels[v]? = some r
  rows : ∀ (r : V) (row : BTreeSet V), p.members[r]? = some row → r ∈ row

/-- A round takes the component of the least remaining element. -/
theorem Partition.Inv.next (hsymm : ∀ a b, b ∈ neighbors a → a ∈ neighbors b) {p p' : Partition V}
    (h : p.Inv neighbors start) (hstep : p.next neighbors = some p') :
    p'.Inv neighbors start ∧ p'.remaining.size < p.remaining.size := by
  unfold Partition.next at hstep
  cases hmin : p.remaining.first? with
  | none =>
    rw [hmin] at hstep
    cases hstep
  | some root =>
    rw [hmin] at hstep
    dsimp only at hstep
    obtain ⟨hroot, hleast⟩ := BTreeSet.first?_eq_some hmin
    have hinside : ∀ v, Connected neighbors root v → v ∈ p.remaining := h.closed root hroot
    obtain ⟨hgroup, hremaining, hlabels⟩ := explore_spec root (p.remaining.erase root) p.labels
      (fun hmem => (BTreeSet.mem_erase_iff.mp hmem).1 rfl)
      (fun v hv => (em (v = root)).imp_right fun hne =>
        BTreeSet.mem_erase_iff.mpr ⟨Ne.symm hne, hinside v hv⟩)
    generalize explore neighbors root (p.remaining.erase root) p.labels = found
      at hgroup hremaining hlabels hstep
    cases hstep
    have hleft : ∀ v, v ∈ found.remaining ↔ v ∈ p.remaining ∧ ¬ Connected neighbors root v := by
      intro v
      rw [hremaining, BTreeSet.mem_erase_iff]
      refine ⟨fun hv => ⟨hv.1.2, hv.2⟩, fun hv => ⟨⟨?_, hv.1⟩, hv.2⟩⟩
      rintro rfl
      exact hv.2 Relation.ReflTransGen.refl
    have hleader : ∀ v, Connected neighbors root v → Leader neighbors v root := by
      intro v hv
      refine ⟨hv.symm hsymm, fun u hu => ?_⟩
      exact isLE_compare_iff.mp (hleast u (hinside u (hv.trans hu)))
    refine ⟨⟨?_, ?_, ?_, ?_, ?_, ?_⟩, ?_⟩
    · intro v hv
      exact h.inside v ((hleft v).mp hv).1
    · intro v hv u hu
      obtain ⟨hmem, hnot⟩ := (hleft v).mp hv
      exact (hleft u).mpr ⟨h.closed v hmem u hu, fun hru => hnot (hru.trans (hu.symm hsymm))⟩
    · intro v r
      dsimp only
      rw [hlabels, hleft]
      by_cases hv : v ∈ found.group
      · have hconnected := (hgroup v).mp hv
        rw [if_pos hv, Option.some.injEq]
        constructor
        · rintro rfl
          exact ⟨⟨h.inside v (hinside v hconnected), fun hmem => hmem.2 hconnected⟩,
            hleader v hconnected⟩
        · rintro ⟨-, hr⟩
          exact (hleader v hconnected).unique hr
      · have hconnected : ¬ Connected neighbors root v := fun hc => hv ((hgroup v).mpr hc)
        rw [if_neg hv, h.labels_iff]
        tauto
    · intro v hv hnot
      dsimp only at hnot ⊢
      rw [hlabels]
      split_ifs with hgroup'
      · exact ⟨root, rfl⟩
      · refine h.total v hv fun hmem => hnot ((hleft v).mpr ⟨hmem, ?_⟩)
        exact fun hconnected => hgroup' ((hgroup v).mpr hconnected)
    · intro r v
      dsimp only
      rw [Adjacency.Has, Adjacency.row_insert, hlabels]
      have hlabelled : p.labels[v]? = some r → v ∉ p.remaining := fun hl =>
        ((h.labels_iff v r).mp hl).1.2
      by_cases hv : v ∈ found.group
      · rw [if_pos hv, Option.some.injEq]
        split_ifs with hr
        · exact ⟨fun _ => hr, fun _ => hv⟩
        · refine ⟨fun hmem => ?_, fun heq => absurd heq hr⟩
          exact absurd (hinside v ((hgroup v).mp hv)) (hlabelled ((h.members_iff r v).mp hmem))
      · rw [if_neg hv]
        split_ifs with hr
        · refine ⟨fun hmem => absurd hmem hv, fun hl => ?_⟩
          obtain ⟨⟨-, hnot⟩, hconnected, -⟩ := (h.labels_iff v r).mp hl
          exact absurd (hinside v (hr ▸ hconnected.symm hsymm)) hnot
        · exact h.members_iff r v
    · intro r row hrow
      dsimp only at hrow
      rw [BTreeMap.lookup_insert] at hrow
      split_ifs at hrow with hr
      · cases hrow
        rw [← hr, hgroup]
        exact Relation.ReflTransGen.refl
      · exact h.rows r row hrow
    · dsimp only
      have hsize := BTreeSet.size_erase_of_mem hroot
      have hle : found.remaining.size ≤ (p.remaining.erase root).size :=
        BTreeSet.size_le_of_subset fun v hv => ((hremaining v).mp hv).1
      omega

/-- A closed set is cut into its components, each labelled by its least element. -/
theorem partition_spec (hsymm : ∀ a b, b ∈ neighbors a → a ∈ neighbors b)
    (hclosed : ∀ a ∈ start, ∀ b ∈ neighbors a, b ∈ start) :
    (∀ v r, (partition neighbors start).labels[v]? = some r ↔ v ∈ start ∧ Leader neighbors v r) ∧
      (∀ v ∈ start, ∃ r, (partition neighbors start).labels[v]? = some r) ∧
      (∀ r v, (partition neighbors start).members.Has r v ↔
        (partition neighbors start).labels[v]? = some r) ∧
      ∀ (r : V) (row : BTreeSet V), (partition neighbors start).members[r]? = some row → r ∈ row := by
  have hinit : Partition.Inv neighbors start { remaining := start, labels := ∅, members := ∅ } := by
    refine ⟨fun v hv => hv, fun v hv u hu => ?_, ?_, fun v hv hnot => absurd hv hnot, ?_, ?_⟩
    · induction hu with
      | refl => exact hv
      | tail _ huw ih => exact hclosed _ ih _ huw
    · intro v r
      rw [ExtTreeMap.getElem?_empty]
      exact ⟨fun hnone => absurd hnone.symm (Option.some_ne_none r), fun hv => absurd hv.1.1 hv.1.2⟩
    · intro r v
      rw [ExtTreeMap.getElem?_empty]
      exact ⟨fun hmem => absurd hmem Adjacency.not_has_empty,
        fun hnone => absurd hnone.symm (Option.some_ne_none r)⟩
    · intro r row hrow
      rw [ExtTreeMap.getElem?_empty] at hrow
      cases hrow
  obtain ⟨hinv, hdone⟩ := iterate_spec (fun p : Partition V => p.remaining.size)
    (fun p p' h hstep => Partition.Inv.next hsymm h hstep) hinit (le_refl start.size)
  change Partition.Inv neighbors start (partition neighbors start) at hinv
  change (partition neighbors start).next neighbors = none at hdone
  generalize partition neighbors start = p at hinv hdone ⊢
  have hempty : ∀ v, v ∉ p.remaining := by
    unfold Partition.next at hdone
    cases hmin : p.remaining.first? with
    | none => exact BTreeSet.notMem_of_first?_eq_none hmin
    | some root =>
      rw [hmin] at hdone
      cases hdone
  refine ⟨fun v r => ?_, fun v hv => hinv.total v hv (hempty v), hinv.members_iff, hinv.rows⟩
  rw [hinv.labels_iff]
  simp [hempty]

end Spec

end FrankenGraph

import FrankenGraph.Zset.Reachability

/-!
# The searches of the incremental reachability

Each of the three kinds of ticks searches for what its sources reach after the tick, on the basis of
what they reached before.

Results:
* `IncrementalReachability.mem_rederive`: the new row of a source
* `IncrementalReachability.mem_insertionSearch`: the pairs that insertions add
* `IncrementalReachability.mem_deletionSearch`: the pairs that removals leave
-/

namespace FrankenGraph.Zset.IncrementalReachability

open List Std.ExtTreeSet BTreeSet Adjacency Frontier

open Std (ExtTreeMap ExtTreeSet)
open Relation (TransGen)

variable {V : Type} [LinearOrder V]

/-- The edges of a state. -/
def Edge (s : IncrementalReachability V) (a b : V) : Prop :=
  s.edges.coeff (a, b) ≠ 0

/-- The relations of a state are those of its edges. -/
structure Sound (s : IncrementalReachability V) : Prop where
  nonneg : ∀ e, 0 ≤ s.edges.coeff e
  outgoing_iff : ∀ a b, s.outgoing.Has a b ↔ s.Edge a b
  incoming_iff : ∀ a b, s.incoming.Has b a ↔ s.Edge a b
  reachable_iff : ∀ a b, s.reachable.Has a b ↔ TransGen s.Edge a b
  predecessors_iff : ∀ a b, s.predecessors.Has b a ↔ TransGen s.Edge a b

/-- The changes lead from the edges of a state to the next ones. -/
structure Staged (s : IncrementalReachability V) (next : V → V → Prop) (changes : EdgeChanges V) :
    Prop where
  inserted_iff : ∀ a b, changes.inserted.Has a b ↔ ¬ s.Edge a b ∧ next a b
  removed_iff : ∀ a b, changes.removed.Has a b ↔ s.Edge a b ∧ ¬ next a b

variable {rel : Adjacency V} {a b : V}

theorem mem_row_iff : b ∈ (rel.row a).toList ↔ rel.Has a b :=
  mem_toList

theorem contains_row_iff : (rel.row a).contains b = true ↔ rel.Has a b :=
  contains_iff_mem

theorem mem_destinations {v : V} : v ∈ destinations rel ↔ ∃ a, rel.Has a v := by
  unfold destinations
  rw [foldl_rows (fun (set : BTreeSet V) _ v => set.insert v), mem_foldl_insert]
  constructor
  · rintro (hempty | ⟨⟨a, b⟩, hmem, rfl⟩)
    · exact absurd hempty not_mem_empty
    · exact ⟨a, mem_pairs.mp hmem⟩
  · rintro ⟨a, hhas⟩
    exact .inr ⟨(a, v), mem_pairs.mpr hhas, rfl⟩

variable {s : IncrementalReachability V} {next : V → V → Prop} {changes : EdgeChanges V}
  (h : Sound s) (hs : Staged s next changes)

include h

theorem contains_iff : s.contains a b = true ↔ TransGen s.Edge a b := by
  rw [contains, contains_row_iff, h.reachable_iff]

include hs

/-! ## Rows computed anew -/

theorem mem_nextDestinations :
    b ∈ s.nextDestinations changes.inserted changes.removed a ↔ next a b := by
  rw [nextDestinations, mem_append, mem_filter, mem_row_iff, mem_row_iff,
    Bool.not_eq_true', ← Bool.not_eq_true, contains_row_iff, h.outgoing_iff, hs.inserted_iff,
    hs.removed_iff]
  tauto

/-- A row computed anew is what its source reaches. -/
theorem mem_rederive {v : V} :
    v ∈ s.rederive changes.inserted changes.removed a ↔ TransGen next a v := by
  have hdomain : ∀ v, TransGen next a v →
      v ∈ (destinations changes.inserted).toList.foldl (fun domain v => domain.insert v)
        (destinations s.outgoing) := by
    intro v hv
    obtain ⟨x, -, hxv⟩ := Relation.TransGen.tail'_iff.mp hv
    rw [mem_foldl_insert, mem_destinations]
    by_cases hold : s.Edge x v
    · exact .inl ⟨x, (h.outgoing_iff x v).mpr hold⟩
    · exact .inr ⟨v, mem_toList.mpr
        (mem_destinations.mpr ⟨x, (hs.inserted_iff x v).mpr ⟨hold, hxv⟩⟩), rfl⟩
  have rules : SearchRules (fun _ v => s.nextDestinations changes.inserted changes.removed v)
      (fun v => if v = a then [] else [v])
      ((destinations changes.inserted).toList.foldl (fun domain v => domain.insert v)
        (destinations s.outgoing))
      (fun i => i = a ∨ TransGen next a i) (TransGen next a)
      (fun reached i => ∀ v, next i v → v ∈ reached) (fun _ => True) := by
    refine ⟨fun reached i v hi hv => ?_, fun v i hv hi => ?_, hdomain,
      fun reached reached' i hsub hdone v hv => hsub v (hdone v hv),
      fun reached reached' i _ _ hreached' => ⟨fun v hv => ?_, trivial⟩⟩
    · have hiv := (mem_nextDestinations h hs).mp hv
      rcases hi with rfl | hi
      · exact .single hiv
      · exact hi.tail hiv
    · split_ifs at hi
      · cases hi
      · rw [mem_singleton.mp hi]
        exact .inr hv
    · exact (hreached' v).mpr (.inr ((mem_nextDestinations h hs).mpr hv))
  obtain ⟨hsound, -, hstart, hpushed, -⟩ := saturate_spec rules
    (f := { reached := ∅, pending := [a] })
    (fun i hi => .inl (mem_singleton.mp hi))
    (fun v hv => absurd hv not_mem_empty)
    (fun v hv => absurd hv not_mem_empty) trivial
  have hsource := hstart a mem_cons_self
  refine ⟨hsound v, fun hv => ?_⟩
  induction hv with
  | single hav => exact hsource _ hav
  | @tail x v _ hxv ih =>
    by_cases hx : x = a
    · exact hsource v (hx ▸ hxv)
    · exact hpushed x ih x (by rw [if_neg hx]; exact mem_cons_self) v hxv

/-! ## Ticks that only insert -/

section Insertions

variable (hgrows : ∀ a b, s.Edge a b → next a b)

variable {a : V}

omit hs in
/-- A seed is the end of an inserted edge that joins a new pair, for its source and the vertices that
reached its source. -/
theorem has_seedInsertions {inserted : Adjacency V} {t : V} : (s.seedInsertions inserted).Has a t ↔
      ∃ u, inserted.Has u t ∧ ¬ TransGen s.Edge u t ∧ (a = u ∨ TransGen s.Edge a u) ∧
        ¬ TransGen s.Edge a t := by
  have hseed : ∀ (d : V) (seeds : Adjacency V) (u x y : V), (s.seedInsertion d seeds u).Has x y ↔
      seeds.Has x y ∨ (u = x ∧ d = y ∧ ¬ TransGen s.Edge x y) := by
    intro d seeds u x y
    unfold seedInsertion
    split_ifs with hcontains
    · rw [contains_iff h] at hcontains
      refine ⟨.inl, ?_⟩
      rintro (hseeds | ⟨rfl, rfl, hnot⟩)
      · exact hseeds
      · exact absurd hcontains hnot
    · rw [contains_iff h] at hcontains
      rw [has_link]
      refine or_congr_right ⟨?_, fun hxy => ⟨hxy.1, hxy.2.1⟩⟩
      rintro ⟨rfl, rfl⟩
      exact ⟨rfl, rfl, hcontains⟩
  have hstep : ∀ (seeds : Adjacency V) (p : V × V) (x y : V), (if s.contains p.1 p.2 then seeds
        else (s.predecessors.row p.1).toList.foldl (s.seedInsertion p.2)
          (s.seedInsertion p.2 seeds p.1)).Has x y ↔
      seeds.Has x y ∨ (¬ TransGen s.Edge p.1 p.2 ∧ (x = p.1 ∨ TransGen s.Edge x p.1) ∧ p.2 = y ∧
        ¬ TransGen s.Edge x y) := by
    intro seeds p x y
    split_ifs with hcontains
    · rw [contains_iff h] at hcontains
      simp [hcontains]
    · rw [contains_iff h] at hcontains
      rw [has_foldl (hseed p.2), hseed, or_assoc]
      refine or_congr_right ?_
      simp only [mem_row_iff, h.predecessors_iff]
      constructor
      · rintro (⟨rfl, hy, hnot⟩ | ⟨u, hu, rfl, hy, hnot⟩)
        · exact ⟨hcontains, .inl rfl, hy, hnot⟩
        · exact ⟨hcontains, .inr hu, hy, hnot⟩
      · rintro ⟨-, rfl | hx, hy, hnot⟩
        · exact .inl ⟨rfl, hy, hnot⟩
        · exact .inr ⟨x, hx, rfl, hy, hnot⟩
  unfold seedInsertions
  rw [foldl_rows (fun (seeds : Adjacency V) u d =>
    if s.contains u d then seeds
    else (s.predecessors.row u).toList.foldl (s.seedInsertion d) (s.seedInsertion d seeds u)),
    has_foldl hstep]
  constructor
  · rintro (hempty | ⟨⟨u, d⟩, hmem, hnew, hreach, rfl, hnot⟩)
    · exact absurd hempty not_has_empty
    · exact ⟨u, mem_pairs.mp hmem, hnew, hreach, hnot⟩
  · rintro ⟨u, hmem, hnew, hreach, hnot⟩
    exact .inr ⟨(u, t), mem_pairs.mpr hmem, hnew, hreach, rfl, hnot⟩

variable {v : V}

omit hs in
theorem mem_insertionCone {i : V} {reached : BTreeSet V} :
    v ∈ s.insertionCone a reached i ↔ ¬ TransGen s.Edge a i ∧ i ∉ reached ∧
      (v = i ∨ TransGen s.Edge i v) ∧ ¬ TransGen s.Edge a v := by
  unfold insertionCone
  split_ifs with hskip
  · rw [Bool.or_eq_true, contains_iff h, ExtTreeSet.contains_iff_mem] at hskip
    simp only [List.not_mem_nil, false_iff]
    tauto
  · rw [Bool.or_eq_true, contains_iff h, ExtTreeSet.contains_iff_mem] at hskip
    rw [List.mem_filter, List.mem_cons, mem_row_iff, h.reachable_iff, Bool.not_eq_true',
      ← Bool.not_eq_true, contains_iff h]
    tauto

omit h hs in
/-- The domain of the search: the ends of the inserted edges and what they reached. -/
theorem mem_insertionDomain {inserted : Adjacency V} :
    v ∈ (destinations inserted).toList.foldl (fun domain v =>
        (s.reachable.row v).toList.foldl (fun domain u => domain.insert u) (domain.insert v))
        (∅ : BTreeSet V) ↔
      ∃ i, i ∈ destinations inserted ∧ (v = i ∨ s.reachable.Has i v) := by
  have hstep : ∀ (domain : BTreeSet V) (i v : V),
      v ∈ (s.reachable.row i).toList.foldl (fun domain u => domain.insert u) (domain.insert i) ↔
        v ∈ domain ∨ (v = i ∨ s.reachable.Has i v) := by
    intro domain i v
    rw [BTreeSet.mem_foldl_insert, BTreeSet.mem_insert_iff]
    simp only [mem_row_iff, exists_eq_right]
    tauto
  rw [BTreeSet.mem_foldl hstep]
  simp only [not_mem_empty, false_or, mem_toList]

include hgrows

/-- The search from the seeds of a source reaches what the source reaches only after the tick. -/
theorem mem_insertionSearch :
    v ∈ s.insertionSearch changes.inserted a ((s.seedInsertions changes.inserted).row a) ↔
      TransGen next a v ∧ ¬ TransGen s.Edge a v := by
  have hgrown : ∀ {x y}, TransGen s.Edge x y → TransGen next x y := fun hxy =>
    Relation.TransGen.mono hgrows _ _ hxy
  have rules : SearchRules (s.insertionCone a) (fun v => (changes.inserted.row v).toList)
      ((destinations changes.inserted).toList.foldl (fun domain v =>
        (s.reachable.row v).toList.foldl (fun domain u => domain.insert u) (domain.insert v)) ∅)
      (fun i => i ∈ destinations changes.inserted ∧ TransGen next a i)
      (fun v => (∃ i, i ∈ destinations changes.inserted ∧ (v = i ∨ s.reachable.Has i v)) ∧
        TransGen next a v ∧ ¬ TransGen s.Edge a v)
      (fun reached i => ∀ v, v = i ∨ TransGen s.Edge i v → TransGen s.Edge a v ∨ v ∈ reached)
      (fun reached => ∀ t ∈ reached, ∀ v, TransGen s.Edge t v →
        TransGen s.Edge a v ∨ v ∈ reached) := by
    refine ⟨fun reached i v hi hv => ?_, fun v i hv hi => ?_, fun v hv => ?_,
      fun reached reached' i hsub hdone v hv => (hdone v hv).imp_right (hsub v),
      fun reached reached' i hstable _ hreached' => ?_⟩
    · obtain ⟨-, -, hcone, hnot⟩ := (mem_insertionCone h).mp hv
      refine ⟨⟨i, hi.1, hcone.imp_right (h.reachable_iff i v).mpr⟩, ?_, hnot⟩
      rcases hcone with rfl | hcone
      · exact hi.2
      · exact hi.2.trans (hgrown hcone)
    · have hvi := mem_row_iff.mp hi
      exact ⟨mem_destinations.mpr ⟨v, hvi⟩, hv.2.1.tail ((hs.inserted_iff v i).mp hvi).2⟩
    · exact mem_insertionDomain.mpr hv.1
    · -- a cone that is skipped is already there: its target was reached before or with its cone
      have hdone : ∀ v, v = i ∨ TransGen s.Edge i v → TransGen s.Edge a v ∨ v ∈ reached' := by
        intro v hv
        by_cases hold : TransGen s.Edge a i
        · rcases hv with rfl | hv
          · exact .inl hold
          · exact .inl (hold.trans hv)
        · by_cases hi : i ∈ reached
          · rcases hv with rfl | hv
            · exact .inr ((hreached' v).mpr (.inl hi))
            · exact (hstable i hi v hv).imp_right fun hv => (hreached' v).mpr (.inl hv)
          · by_cases hv' : TransGen s.Edge a v
            · exact .inl hv'
            · exact .inr ((hreached' v).mpr (.inr ((mem_insertionCone h).mpr ⟨hold, hi, hv, hv'⟩)))
      refine ⟨hdone, fun t ht v hv => ?_⟩
      rcases (hreached' t).mp ht with ht | ht
      · exact (hstable t ht v hv).imp_right fun hv => (hreached' v).mpr (.inl hv)
      · obtain ⟨-, -, hcone, -⟩ := (mem_insertionCone h).mp ht
        rcases hcone with rfl | hcone
        · exact hdone v (.inr hv)
        · exact hdone v (.inr (hcone.trans hv))
  have hseeds : ∀ t, t ∈ ((s.seedInsertions changes.inserted).row a).toList.reverse ↔
      (s.seedInsertions changes.inserted).Has a t := fun t => by
    rw [mem_reverse, mem_row_iff]
  obtain ⟨hsound, -, hstart, hpushed, hstable⟩ := saturate_spec rules
    (f := { reached := ∅, pending := ((s.seedInsertions changes.inserted).row a).toList.reverse })
    (fun t ht => by
      obtain ⟨u, hut, -, hau, -⟩ := (has_seedInsertions h).mp ((hseeds t).mp ht)
      refine ⟨mem_destinations.mpr ⟨u, hut⟩, ?_⟩
      have hnext := ((hs.inserted_iff u t).mp hut).2
      rcases hau with rfl | hau
      · exact .single hnext
      · exact (hgrown hau).tail hnext)
    (fun v hv => absurd hv not_mem_empty)
    (fun v hv => absurd hv not_mem_empty)
    (fun v hv => absurd hv not_mem_empty)
  -- the first inserted edge after an old path is a seed
  have hseeded : ∀ x y, (a = x ∨ TransGen s.Edge a x) → next x y →
      TransGen s.Edge a y ∨ y ∈ s.insertionSearch changes.inserted a
        ((s.seedInsertions changes.inserted).row a) := by
    intro x y hax hxy
    have hcompose : TransGen s.Edge x y → TransGen s.Edge a y := by
      intro hold
      rcases hax with rfl | hax
      · exact hold
      · exact hax.trans hold
    by_cases hold : TransGen s.Edge x y
    · exact .inl (hcompose hold)
    · by_cases hay : TransGen s.Edge a y
      · exact .inl hay
      · have hinserted := (hs.inserted_iff x y).mpr ⟨fun he => hold (.single he), hxy⟩
        exact hstart y ((hseeds y).mpr ((has_seedInsertions h).mpr ⟨x, hinserted, hold, hax, hay⟩)) y
          (.inl rfl)
  have hcomplete : ∀ v, TransGen next a v → TransGen s.Edge a v ∨
      v ∈ s.insertionSearch changes.inserted a ((s.seedInsertions changes.inserted).row a) := by
    intro v hv
    induction hv with
    | single hav => exact hseeded a _ (.inl rfl) hav
    | @tail x v _ hxv ih =>
      rcases ih with hax | hx
      · exact hseeded x v (.inr hax) hxv
      · by_cases hold : s.Edge x v
        · exact hstable x hx v (.single hold)
        · exact hpushed x hx v (mem_row_iff.mpr ((hs.inserted_iff x v).mpr ⟨hold, hxv⟩)) v (.inl rfl)
  exact ⟨fun hv => (hsound v hv).2, fun hv => (hcomplete v hv.1).resolve_left hv.2⟩

end Insertions

/-! ## Ticks that only remove -/

section Deletions

variable (hshrinks : ∀ a b, next a b → s.Edge a b)

variable {a t : V}

omit hs in
/-- A pair may be lost when a removed edge lies on a path that joins it. -/
theorem has_deletionCandidates {removed : Adjacency V} : (s.deletionCandidates removed).Has a t ↔
      ∃ u v, removed.Has u v ∧ (a = u ∨ TransGen s.Edge a u) ∧ (t = v ∨ TransGen s.Edge v t) := by
  have hroot : ∀ (d : V) (candidates : Adjacency V) (u x y : V),
      ((d :: (s.reachable.row d).toList).foldl
        (fun (candidates : Adjacency V) target => candidates.link u target) candidates).Has x y ↔
        candidates.Has x y ∨ (u = x ∧ (y = d ∨ TransGen s.Edge d y)) := by
    intro d candidates u x y
    refine (has_foldl_link (fun target => (u, target)) _).trans (or_congr_right ?_)
    simp only [mem_cons, mem_row_iff, h.reachable_iff, Prod.mk.injEq]
    constructor
    · rintro ⟨target, htarget, rfl, rfl⟩
      exact ⟨rfl, htarget⟩
    · rintro ⟨rfl, hy⟩
      exact ⟨y, hy, rfl, rfl⟩
  have hstep : ∀ (candidates : Adjacency V) (p : V × V) (x y : V),
      ((p.1 :: (s.predecessors.row p.1).toList).foldl (fun candidates root =>
        (p.2 :: (s.reachable.row p.2).toList).foldl
          (fun (candidates : Adjacency V) target => candidates.link root target) candidates)
        candidates).Has x y ↔
      candidates.Has x y ∨
        ((x = p.1 ∨ TransGen s.Edge x p.1) ∧ (y = p.2 ∨ TransGen s.Edge p.2 y)) := by
    intro candidates p x y
    rw [has_foldl (hroot p.2)]
    refine or_congr_right ?_
    simp only [mem_cons, mem_row_iff, h.predecessors_iff]
    constructor
    · rintro ⟨u, hu, rfl, hy⟩
      exact ⟨hu, hy⟩
    · rintro ⟨hx, hy⟩
      exact ⟨x, hx, rfl, hy⟩
  unfold deletionCandidates
  rw [foldl_rows (fun (candidates : Adjacency V) u d =>
    (u :: (s.predecessors.row u).toList).foldl (fun candidates root =>
      (d :: (s.reachable.row d).toList).foldl
        (fun (candidates : Adjacency V) target => candidates.link root target) candidates)
      candidates), has_foldl hstep]
  constructor
  · rintro (hempty | ⟨⟨u, d⟩, hmem, hx, hy⟩)
    · exact absurd hempty not_has_empty
    · exact ⟨u, d, mem_pairs.mp hmem, hx, hy⟩
  · rintro ⟨u, v, hmem, hx, hy⟩
    exact .inr ⟨(u, v), mem_pairs.mpr hmem, hx, hy⟩

omit h in
theorem next_of_edge {x y : V} (hxy : s.Edge x y) (hkept : ¬ changes.removed.Has x y) : next x y := by
  rw [hs.removed_iff] at hkept
  by_contra hnot
  exact hkept ⟨hxy, hnot⟩

/-- A pair that is no candidate is still joined. -/
theorem reaches_of_not_candidate (hat : TransGen s.Edge a t)
    (hnot : ¬ (s.deletionCandidates changes.removed).Has a t) : TransGen next a t := by
  rw [has_deletionCandidates h] at hnot
  induction hat with
  | single hat =>
    exact .single (next_of_edge hs hat fun hremoved => hnot ⟨a, _, hremoved, .inl rfl, .inl rfl⟩)
  | @tail x t hax hxt ih =>
    refine (ih ?_).tail (next_of_edge hs hxt fun hremoved =>
      hnot ⟨x, t, hremoved, .inr hax, .inl rfl⟩)
    rintro ⟨u, v, hremoved, hau, hvx⟩
    refine hnot ⟨u, v, hremoved, hau, .inr ?_⟩
    rcases hvx with rfl | hvx
    · exact .single hxt
    · exact hvx.tail hxt

omit h hs in
theorem mem_foldl_add_singleton (l : List V) (f : Frontier V) :
    (∀ v, v ∈ (l.foldl (add fun v => [v]) f).reached ↔ v ∈ f.reached ∨ v ∈ l) ∧
      ((∀ v, v ∈ f.pending ↔ v ∈ f.reached) → ∀ v, v ∈ (l.foldl (add fun v => [v]) f).pending ↔
          v ∈ (l.foldl (add fun v => [v]) f).reached) := by
  obtain ⟨hreached, hkept, hitems, hpushed, -⟩ := foldl_add_spec (fun v => [v]) ∅ l f
  refine ⟨hreached, fun hf v => ⟨fun hv => ?_, fun hv => ?_⟩⟩
  · rcases hitems v hv with hv | ⟨u, hu, hv⟩
    · exact (hreached v).mpr (.inl ((hf v).mp hv))
    · exact (hreached v).mpr (.inr (mem_singleton.mp hv ▸ hu))
  · by_cases hold : v ∈ f.reached
    · exact hkept v ((hf v).mpr hold)
    · exact hpushed v (((hreached v).mp hv).resolve_left hold) hold v mem_cons_self

theorem mem_survivingTargets {targets : BTreeSet V} {x y : V} :
    y ∈ s.survivingTargets changes.removed targets x ↔ y ∈ targets ∧ s.Edge x y ∧ next x y := by
  rw [survivingTargets, List.mem_filter, mem_row_iff, Bool.and_eq_true, ExtTreeSet.contains_iff_mem,
    Bool.not_eq_true', ← Bool.not_eq_true, contains_row_iff, h.outgoing_iff, hs.removed_iff]
  tauto

theorem seeded_iff {targets : BTreeSet V} : s.seeded changes.removed a targets t = true ↔
      ∃ p, s.Edge p t ∧ next p t ∧ (p = a ∨ p ∉ targets ∧ TransGen s.Edge a p) := by
  rw [seeded, List.any_eq_true]
  refine exists_congr fun p => ?_
  rw [mem_row_iff, h.incoming_iff, Bool.and_eq_true, Bool.not_eq_true', ← Bool.not_eq_true,
    contains_row_iff, hs.removed_iff, Bool.or_eq_true, decide_eq_true_eq, Bool.and_eq_true,
    Bool.not_eq_true', ← Bool.not_eq_true, ExtTreeSet.contains_iff_mem, contains_iff h]
  tauto

include hshrinks

/-- Of the pairs that may be lost, the search finds those that are still joined. -/
theorem mem_deletionSearch :
    t ∈ s.deletionSearch changes.removed a ((s.deletionCandidates changes.removed).row a) ↔
      (s.deletionCandidates changes.removed).Has a t ∧ TransGen next a t := by
  have hshrunk : ∀ {x y}, TransGen next x y → TransGen s.Edge x y := fun hxy =>
    Relation.TransGen.mono hshrinks _ _ hxy
  generalize htargets : (s.deletionCandidates changes.removed).row a = targets
  have hcandidate : ∀ v, v ∈ targets ↔ (s.deletionCandidates changes.removed).Has a v := fun v => by
    rw [← htargets]
    rfl
  have rules : SearchRules (fun _ v => s.survivingTargets changes.removed targets v) (fun v => [v])
      targets (fun i => i ∈ targets ∧ TransGen next a i) (fun v => v ∈ targets ∧ TransGen next a v)
      (fun reached i => ∀ v ∈ targets, next i v → v ∈ reached) (fun _ => True) := by
    refine ⟨fun reached i v hi hv => ?_, fun v i hv hi => ?_, fun v hv => hv.1,
      fun reached reached' i hsub hdone v hv hiv => hsub v (hdone v hv hiv),
      fun reached reached' i _ _ hreached' => ⟨fun v hv hiv => ?_, trivial⟩⟩
    · obtain ⟨hv, -, hiv⟩ := (mem_survivingTargets h hs).mp hv
      exact ⟨hv, hi.2.tail hiv⟩
    · rw [mem_singleton.mp hi]
      exact hv
    · exact (hreached' v).mpr (.inr ((mem_survivingTargets h hs).mpr ⟨hv, hshrinks i v hiv, hiv⟩))
  let seeds := targets.toList.filter (s.seeded changes.removed a targets)
  obtain ⟨hreached, hpending⟩ := mem_foldl_add_singleton seeds { reached := ∅, pending := [] }
  have hpending' := hpending (fun v => by simp [not_mem_empty])
  have hseeds : ∀ v, v ∈ (seeds.foldl (add fun v => [v])
      { reached := ∅, pending := [] }).reached ↔
      v ∈ targets ∧ s.seeded changes.removed a targets v = true := by
    intro v
    rw [hreached, mem_filter, mem_toList]
    simp only [not_mem_empty, false_or]
  have hstarts : ∀ v, v ∈ (seeds.foldl (add fun v => [v])
      { reached := ∅, pending := [] }).reached → v ∈ targets ∧ TransGen next a v := by
    intro v hv
    obtain ⟨htarget, hseeded⟩ := (hseeds v).mp hv
    obtain ⟨p, -, hpv, hpa | ⟨hp, hap⟩⟩ := (seeded_iff h hs).mp hseeded
    · exact ⟨htarget, .single (hpa ▸ hpv)⟩
    · rw [hcandidate] at hp
      exact ⟨htarget, (reaches_of_not_candidate h hs hap hp).tail hpv⟩
  obtain ⟨hsound, hkept, -, hpushed, -⟩ := saturate_spec rules
    (f := seeds.foldl (add fun v => [v]) { reached := ∅, pending := [] })
    (fun v hv => hstarts v ((hpending' v).mp hv)) hstarts
    (fun v hv i hi => (hpending' i).mpr (mem_singleton.mp hi ▸ hv)) trivial
  have hentry : ∀ x v, v ∈ targets → next x v → (x = a ∨ x ∉ targets ∧ TransGen s.Edge a x) →
      v ∈ s.deletionSearch changes.removed a targets := fun x v hv hxv hx =>
    hkept v ((hseeds v).mpr ⟨hv, (seeded_iff h hs).mpr ⟨x, hshrinks x v hxv, hxv, hx⟩⟩)
  refine ⟨fun ht => ?_, fun ht => ?_⟩
  · rw [← hcandidate]
    exact hsound t ht
  · obtain ⟨hcand, hreach⟩ := ht
    rw [← hcandidate] at hcand
    induction hreach with
    | single hat => exact hentry a _ hcand hat (.inl rfl)
    | @tail x t hax hxt ih =>
      by_cases hx : x ∈ targets
      · exact hpushed x (ih hx) x mem_cons_self t hcand hxt
      · exact hentry x t hcand hxt (.inr ⟨hx, hshrunk hax⟩)

end Deletions

end FrankenGraph.Zset.IncrementalReachability

import FrankenGraph.Zset.ReachabilitySearches

/-!
# Ticks of the incremental reachability

What `prepare` stages for each of the three kinds of ticks: the rows that are put in place of old
ones, the rows that are added, and a delta with the pairs that are gained and lost.

Results:
* `staged_changes`: the staged edges
* `insertions_derived`, `deletions_derived`, `rows_derived`: what the kinds of ticks derive
-/

namespace FrankenGraph.Zset

open ZSet BTreeSet Adjacency List Option

open Std (ExtTreeMap ExtTreeSet)
open Relation (TransGen)

variable {V : Type} [LinearOrder V]

/-! ## Loops over rows -/

/-- A loop that accumulates the pairs of one row. -/
theorem coeff_foldl_row {l : List V} (hl : l.Nodup) (source : V) (w : Int) (z : ZSet (V × V))
    (a b : V) :
    (l.foldl (fun z v => z.accumulate (source, v) w) z).coeff (a, b) =
      z.coeff (a, b) + if source = a ∧ b ∈ l then w else 0 := by
  rw [coeff_foldl_accumulate (fun v => (source, v)) (fun _ => w), sum_eq_single_of_nodup hl _ b]
  · by_cases hsource : source = a
    · simp [hsource]
    · simp [hsource]
  · intro v _ hv
    simp [hv]

/-- A loop that adds rows that are not empty. -/
theorem has_foldl_rows {rows : List (V × BTreeSet V)} (hdistinct : (rows.map Prod.fst).Nodup)
    (a b : V) :
    (rows.foldl (fun (m : Adjacency V) e => if e.2.isEmpty then m else m.insert e.1 e.2) ∅).Has a b ↔
      ∃ row, (a, row) ∈ rows ∧ b ∈ row := by
  have hstep : ∀ (m : Adjacency V) (e : V × BTreeSet V) (x : V),
      row (if e.2.isEmpty then m else m.insert e.1 e.2) x =
        if e.1 = x then (if e.2.isEmpty then m.row x else e.2) else m.row x := by
    intro m e x
    by_cases hempty : e.2.isEmpty
    · simp [hempty]
    · rw [if_neg hempty, if_neg hempty, row_insert]
  obtain ⟨hin, hout⟩ := foldl_pointwise
    (fun _ (row : BTreeSet V) old => if row.isEmpty then old else row) hstep hdistinct ∅ a
  have hnone : (∅ : Adjacency V).row a = ∅ := by
    rw [row, ExtTreeMap.getElem?_empty]
    rfl
  unfold Adjacency.Has
  constructor
  · intro hb
    by_cases ha : a ∈ rows.map Prod.fst
    · obtain ⟨⟨a', row⟩, hrow, rfl⟩ := mem_map.mp ha
      rw [hin row hrow] at hb
      split_ifs at hb
      · rw [hnone] at hb
        exact absurd hb ExtTreeSet.not_mem_empty
      · exact ⟨row, hrow, hb⟩
    · rw [hout ha, hnone] at hb
      exact absurd hb ExtTreeSet.not_mem_empty
  · rintro ⟨row, hrow, hb⟩
    rw [hin row hrow, if_neg]
    · exact hb
    · intro hempty
      rw [ExtTreeSet.isEmpty_iff] at hempty
      rw [hempty] at hb
      exact ExtTreeSet.not_mem_empty hb

/-- A loop that accumulates the pairs of rows with distinct sources. -/
theorem coeff_foldl_rows {rows : List (V × BTreeSet V)} (hdistinct : (rows.map Prod.fst).Nodup)
    (a b : V) :
    (∀ row, (a, row) ∈ rows → b ∈ row → (rows.foldl (fun (z : ZSet (V × V)) e =>
        e.2.toList.foldl (fun z v => z.accumulate (e.1, v) 1) z) .new).coeff (a, b) = 1) ∧
    ((¬ ∃ row, (a, row) ∈ rows ∧ b ∈ row) → (rows.foldl (fun (z : ZSet (V × V)) e =>
        e.2.toList.foldl (fun z v => z.accumulate (e.1, v) 1) z) .new).coeff (a, b) = 0) := by
  have hstep : ∀ (z : ZSet (V × V)) (e : V × BTreeSet V),
      (e.2.toList.foldl (fun z v => z.accumulate (e.1, v) 1) z).coeff (a, b) =
        z.coeff (a, b) + if e.1 = a then (if b ∈ e.2 then 1 else 0) else 0 := by
    intro z e
    rw [coeff_foldl_row (nodup_toList e.2)]
    simp only [ExtTreeSet.mem_toList, ite_and]
  obtain ⟨hin, hout⟩ := sum_single_of_nodup hdistinct a fun row => if b ∈ row then 1 else 0
  rw [coeff_foldl hstep, coeff_new, zero_add]
  constructor
  · intro row hrow hb
    rw [hin row hrow, if_pos hb]
  · intro hnone
    by_cases ha : a ∈ rows.map Prod.fst
    · obtain ⟨⟨a', row⟩, hrow, rfl⟩ := mem_map.mp ha
      rw [hin row hrow, if_neg fun hb => hnone ⟨row, hrow, hb⟩]
    · exact hout ha

/-- A delta is the difference of two relations. -/
structure Difference (old new : V → V → Prop) (delta : ZSet (V × V)) : Prop where
  gained : ∀ a b, new a b → ¬ old a b → delta.coeff (a, b) = 1
  lost : ∀ a b, old a b → ¬ new a b → delta.coeff (a, b) = -1
  same : ∀ a b, (old a b ↔ new a b) → delta.coeff (a, b) = 0

section Difference

variable {old new : V → V → Prop} {delta : ZSet (V × V)} (h : Difference old new delta)

include h

theorem Difference.neg_iff (a b : V) : delta.coeff (a, b) < 0 ↔ old a b ∧ ¬ new a b := by
  by_cases hold : old a b
  · by_cases hnew : new a b
    · simp [h.same a b (iff_of_true hold hnew), hnew]
    · simp [h.lost a b hold hnew, hold, hnew]
  · by_cases hnew : new a b
    · simp [h.gained a b hnew hold, hold]
    · simp [h.same a b (iff_of_false hold hnew), hold]

theorem Difference.pos_iff (a b : V) : 0 < delta.coeff (a, b) ↔ new a b ∧ ¬ old a b := by
  by_cases hold : old a b
  · by_cases hnew : new a b
    · simp [h.same a b (iff_of_true hold hnew), hold]
    · simp [h.lost a b hold hnew, hnew]
  · by_cases hnew : new a b
    · simp [h.gained a b hnew hold, hold, hnew]
    · simp [h.same a b (iff_of_false hold hnew), hnew]

end Difference

namespace IncrementalReachability

variable {s : IncrementalReachability V} {next : V → V → Prop} {changes : EdgeChanges V}

/-- What a tick derives from its changes: rows that replace old ones, rows that are added, and a
delta whose losses are taken away. -/
structure Derived (s : IncrementalReachability V) (next : V → V → Prop)
    (replacements additions : Adjacency V) (delta : ZSet (V × V)) : Prop where
  difference : Difference (TransGen s.Edge) (TransGen next) delta
  rows_iff : ∀ a b, ((replacements[a]?).elim (TransGen s.Edge a b) (b ∈ ·) ∨ additions.Has a b) ∧
    ¬ (TransGen s.Edge a b ∧ ¬ TransGen next a b) ↔ TransGen next a b

variable (h : Sound s) (hs : Staged s next changes)

include h hs

/-! ## Ticks that only insert -/

section Insertions

variable (hgrows : ∀ a b, s.Edge a b → next a b)

omit h hs in
theorem nodup_insertionRows {inserted : Adjacency V} :
    ((s.insertionRows inserted).map Prod.fst).Nodup := by
  rw [insertionRows, List.map_map]
  exact BTreeMap.nodup_keys _

include hgrows

/-- The rows that insertions add are the pairs gained. -/
theorem mem_insertionRows {a b : V} :
    (∃ row, (a, row) ∈ s.insertionRows changes.inserted ∧ b ∈ row) ↔
      TransGen next a b ∧ ¬ TransGen s.Edge a b := by
  rw [← mem_insertionSearch h hs hgrows]
  constructor
  · rintro ⟨row, hmem, hb⟩
    obtain ⟨⟨a', targets⟩, htargets, heq⟩ := mem_map.mp hmem
    cases heq
    rw [row, ExtTreeMap.mem_toList_iff_getElem?_eq_some.mp htargets]
    exact hb
  · intro hb
    cases hrow : (s.seedInsertions changes.inserted)[a]? with
    | none =>
      -- without seeds the search does not begin
      rw [row, hrow] at hb
      have hstart : s.insertionSearch changes.inserted a ((none : Option (BTreeSet V)).getD ∅) = ∅ :=
        congrArg Frontier.reached (iterate_of_none rfl)
      rw [hstart] at hb
      exact absurd hb ExtTreeSet.not_mem_empty
    | some targets =>
      rw [row, hrow] at hb
      exact ⟨_, mem_map.mpr
        ⟨(a, targets), ExtTreeMap.mem_toList_iff_getElem?_eq_some.mpr hrow, rfl⟩, hb⟩

theorem insertions_derived : Derived s next ∅ (s.deriveInsertions changes.inserted).1
      (s.deriveInsertions changes.inserted).2 := by
  have hgrown : ∀ a b, TransGen s.Edge a b → TransGen next a b := fun a b hab =>
    Relation.TransGen.mono hgrows _ _ hab
  obtain hrows := fun a b => @mem_insertionRows V _ s next changes h hs hgrows a b
  have hcoeff := fun a b => coeff_foldl_rows (@nodup_insertionRows V _ s changes.inserted) a b
  refine ⟨⟨fun a b hnew hold => ?_, fun a b hold hnew => absurd (hgrown a b hold) hnew,
    fun a b hiff => ?_⟩, fun a b => ?_⟩
  · obtain ⟨row, hrow, hb⟩ := (hrows a b).mpr ⟨hnew, hold⟩
    exact (hcoeff a b).1 row hrow hb
  · refine (hcoeff a b).2 fun hrow => ?_
    obtain ⟨hnew, hold⟩ := (hrows a b).mp hrow
    exact hold (hiff.mpr hnew)
  · have hadded : (s.deriveInsertions changes.inserted).1.Has a b ↔ _ :=
      (has_foldl_rows (@nodup_insertionRows V _ s changes.inserted) a b).trans (hrows a b)
    rw [hadded, ExtTreeMap.getElem?_empty, elim_none]
    have := hgrown a b
    tauto

end Insertions

/-! ## Ticks that only remove -/

section Deletions

variable (hshrinks : ∀ a b, next a b → s.Edge a b)

include hshrinks

/-- A pair is lost when it is a candidate that does not survive. -/
theorem lost_iff {a b : V} : (s.deletionCandidates changes.removed).Has a b ∧
      b ∉ s.deletionSearch changes.removed a ((s.deletionCandidates changes.removed).row a) ↔
      TransGen s.Edge a b ∧ ¬ TransGen next a b := by
  rw [mem_deletionSearch h hs hshrinks]
  constructor
  · rintro ⟨hcandidate, hgone⟩
    refine ⟨?_, fun hnext => hgone ⟨hcandidate, hnext⟩⟩
    obtain ⟨u, v, hremoved, hau, hvb⟩ := (has_deletionCandidates h).mp hcandidate
    have huv := ((hs.removed_iff u v).mp hremoved).1
    have hav : TransGen s.Edge a v := by
      rcases hau with rfl | hau
      · exact .single huv
      · exact hau.tail huv
    rcases hvb with rfl | hvb
    · exact hav
    · exact hav.trans hvb
  · rintro ⟨hold, hgone⟩
    refine ⟨?_, fun hboth => hgone hboth.2⟩
    by_contra hnot
    exact hgone (reaches_of_not_candidate h hs hold hnot)

omit h hs hshrinks in
theorem coeff_deriveDeletions (removed : Adjacency V) (a b : V) :
    (s.deriveDeletions removed).coeff (a, b) = if (s.deletionCandidates removed).Has a b ∧
        b ∉ s.deletionSearch removed a ((s.deletionCandidates removed).row a) then -1 else 0 := by
  let value : V × BTreeSet V → Int := fun e =>
    if e.1 = a then (if b ∈ e.2 ∧ b ∉ s.deletionSearch removed a e.2 then -1 else 0) else 0
  have hstep : ∀ (z : ZSet (V × V)) (e : V × BTreeSet V), (e.2.toList.foldl (fun output target =>
        if (s.deletionSearch removed e.1 e.2).contains target then output
        else output.accumulate (e.1, target) (-1)) z).coeff (a, b) =
        z.coeff (a, b) + value e := by
    intro z e
    have hfilter : (e.2.toList.foldl (fun (output : ZSet (V × V)) target =>
        if (s.deletionSearch removed e.1 e.2).contains target then output
        else output.accumulate (e.1, target) (-1)) z) =
        (e.2.toList.filter fun target => !(s.deletionSearch removed e.1 e.2).contains target).foldl
          (fun output target => output.accumulate (e.1, target) (-1)) z := by
      rw [List.foldl_filter]
      congr 1
      funext output target
      cases (s.deletionSearch removed e.1 e.2).contains target <;> rfl
    rw [hfilter, coeff_foldl_row ((BTreeSet.nodup_toList e.2).filter _)]
    congr 1
    simp only [value, List.mem_filter, ExtTreeSet.mem_toList, Bool.not_eq_true',
      ← Bool.not_eq_true, ExtTreeSet.contains_iff_mem]
    by_cases ha : e.1 = a
    · rw [if_pos ha, ha]
      simp
    · rw [if_neg ha, if_neg fun hboth => ha hboth.1]
  unfold deriveDeletions
  rw [ZSet.coeff_foldl hstep, ZSet.coeff_new, zero_add,
    BTreeMap.sum_single _ a fun row => if b ∈ row ∧ b ∉ s.deletionSearch removed a row then -1 else 0]
  cases hrow : (s.deletionCandidates removed)[a]? with
  | none =>
    rw [Option.elim_none, if_neg]
    rintro ⟨hhas, -⟩
    rw [Adjacency.Has, Adjacency.row, hrow] at hhas
    exact ExtTreeSet.not_mem_empty hhas
  | some row =>
    have hrow' : (s.deletionCandidates removed).row a = row := by
      rw [Adjacency.row, hrow]
      rfl
    simp only [Option.elim_some, Adjacency.Has, hrow']

theorem deletions_derived : Derived s next ∅ ∅ (s.deriveDeletions changes.removed) := by
  have hshrunk : ∀ a b, TransGen next a b → TransGen s.Edge a b := fun a b hab =>
    Relation.TransGen.mono hshrinks _ _ hab
  have hlost := fun a b => @lost_iff V _ s next changes h hs hshrinks a b
  refine ⟨⟨fun a b hnew hold => absurd (hshrunk a b hnew) hold, fun a b hold hnew => ?_,
    fun a b hiff => ?_⟩, fun a b => ?_⟩
  · rw [coeff_deriveDeletions, if_pos ((hlost a b).mpr ⟨hold, hnew⟩)]
  · rw [coeff_deriveDeletions, if_neg]
    intro hgone
    obtain ⟨hold, hnew⟩ := (hlost a b).mp hgone
    exact hnew (hiff.mp hold)
  · rw [ExtTreeMap.getElem?_empty, elim_none]
    have := hshrunk a b
    have hnone : ¬ (∅ : Adjacency V).Has a b := not_has_empty
    tauto

end Deletions

/-! ## Other ticks -/

omit hs in
/-- The sources of changed edges and the vertices that reached them. -/
theorem mem_affected {a : V} : a ∈ s.affected changes ↔
    ∃ u, (u ∈ changes.inserted ∨ u ∈ changes.removed) ∧ (a = u ∨ TransGen s.Edge a u) := by
  have hstep : ∀ (affected : BTreeSet V) (u v : V),
      v ∈ (s.predecessors.row u).toList.foldl (fun affected v => affected.insert v)
        (affected.insert u) ↔ v ∈ affected ∨ (v = u ∨ TransGen s.Edge v u) := by
    intro affected u v
    rw [BTreeSet.mem_foldl_insert, BTreeSet.mem_insert_iff]
    simp only [mem_row_iff, exists_eq_right, h.predecessors_iff]
    tauto
  unfold affected
  rw [BTreeSet.mem_foldl hstep]
  simp only [ExtTreeSet.not_mem_empty, false_or, List.mem_append, ExtTreeMap.mem_keys]

omit h hs in
theorem mem_of_has {rel : Adjacency V} {a b : V} (hab : rel.Has a b) : a ∈ rel := by
  unfold Adjacency.Has row at hab
  cases hrow : rel[a]? with
  | none =>
    rw [hrow] at hab
    exact absurd hab ExtTreeSet.not_mem_empty
  | some row =>
    rw [ExtTreeMap.mem_iff_isSome_getElem?, hrow]
    rfl

/-- A source that is not affected reaches what it reached. -/
theorem reaches_of_not_affected {a : V} (ha : a ∉ s.affected changes) (b : V) :
    TransGen next a b ↔ TransGen s.Edge a b := by
  have hsame : ∀ x, (a = x ∨ TransGen s.Edge a x) → ∀ y, next x y ↔ s.Edge x y := by
    intro x hax y
    have hinserted : ¬ changes.inserted.Has x y := fun hxy =>
      ha ((mem_affected h).mpr ⟨x, .inl (mem_of_has hxy), hax⟩)
    have hremoved : ¬ changes.removed.Has x y := fun hxy =>
      ha ((mem_affected h).mpr ⟨x, .inr (mem_of_has hxy), hax⟩)
    rw [hs.inserted_iff] at hinserted
    rw [hs.removed_iff] at hremoved
    tauto
  constructor
  · intro hab
    induction hab with
    | single hab => exact .single ((hsame a (.inl rfl) _).mp hab)
    | tail _ hxy ih => exact ih.tail ((hsame _ (.inr ih) _).mp hxy)
  · intro hab
    induction hab with
    | single hab => exact .single ((hsame a (.inl rfl) _).mpr hab)
    | tail hax hxy ih => exact ih.tail ((hsame _ (.inr hax) _).mpr hxy)

omit h hs in
theorem coeff_rowChanges (output : ZSet (V × V)) (source : V) (row : BTreeSet V) (a b : V) :
    (s.rowChanges output source row).coeff (a, b) = output.coeff (a, b) +
      if source = a then (if b ∈ row then 1 else 0) - (if s.contains a b then 1 else 0) else 0 := by
  have hlost : ((s.reachable.row source).toList.foldl (fun (output : ZSet (V × V)) destination =>
      if row.contains destination then output else output.accumulate (source, destination) (-1))
      output) = ((s.reachable.row source).toList.filter fun v => !row.contains v).foldl
        (fun output v => output.accumulate (source, v) (-1)) output := by
    rw [foldl_filter]
    congr 1
    funext output v
    cases row.contains v <;> rfl
  have hgained : ∀ output : ZSet (V × V), (row.toList.foldl (fun output destination =>
      if s.contains source destination then output
      else output.accumulate (source, destination) 1) output) =
      (row.toList.filter fun v => !s.contains source v).foldl
        (fun output v => output.accumulate (source, v) 1) output := by
    intro output
    rw [foldl_filter]
    congr 1
    funext output v
    cases s.contains source v <;> rfl
  unfold rowChanges
  rw [hlost, hgained, coeff_foldl_row ((nodup_toList row).filter _),
    coeff_foldl_row ((nodup_toList _).filter _), add_assoc]
  congr 1
  by_cases hsource : source = a
  · subst hsource
    have hold : s.contains source b = true ↔ b ∈ s.reachable.row source :=
      ExtTreeSet.contains_iff_mem
    simp only [mem_filter, ExtTreeSet.mem_toList, Bool.not_eq_true', ← Bool.not_eq_true,
      ExtTreeSet.contains_iff_mem, hold, true_and, if_true]
    by_cases hb : b ∈ row <;> by_cases hreached : b ∈ s.reachable.row source <;>
      simp [hb, hreached]
  · simp [hsource]

omit h hs in
theorem coeff_replaceRows (a b : V) : (s.replaceRows changes).2.coeff (a, b) =
    if a ∈ s.affected changes then
      (if b ∈ s.rederive changes.inserted changes.removed a then 1 else 0) -
        (if s.contains a b then 1 else 0)
    else 0 := by
  let value : V → Int := fun u => if u = a then
    (if b ∈ s.rederive changes.inserted changes.removed u then 1 else 0) -
      (if s.contains a b then 1 else 0) else 0
  have hstep : ∀ (z : ZSet (V × V)) (u : V), (s.rowChanges z u
      (s.rederive changes.inserted changes.removed u)).coeff (a, b) = z.coeff (a, b) + value u :=
    fun z u => coeff_rowChanges z u _ a b
  unfold replaceRows
  dsimp only
  rw [foldl_map, coeff_foldl hstep, coeff_new, zero_add,
    sum_eq_single_of_nodup (nodup_toList _) value a]
  · simp only [ExtTreeSet.mem_toList, value, if_true]
  · intro u _ hu
    exact if_neg hu

omit h hs in
theorem lookup_replaceRows (a : V) : (s.replaceRows changes).1[a]? =
    if a ∈ s.affected changes then some (s.rederive changes.inserted changes.removed a)
    else none := by
  have hdistinct : (((s.affected changes).toList.map fun source =>
      (source, s.rederive changes.inserted changes.removed source)).map Prod.fst).Nodup := by
    rw [List.map_map]
    exact (BTreeSet.nodup_toList (s.affected changes)).map fun u v huv => huv
  obtain ⟨hin, hout⟩ := foldl_pointwise (fun _ (row : BTreeSet V) _ => some row)
    (fun (m : Adjacency V) (e : V × BTreeSet V) (x : V) =>
      (BTreeMap.lookup_insert : (m.insert e.1 e.2)[x]? = _)) hdistinct ∅ a
  by_cases ha : a ∈ s.affected changes
  · rw [if_pos ha]
    exact hin _ (List.mem_map.mpr ⟨a, ExtTreeSet.mem_toList.mpr ha, rfl⟩)
  · rw [if_neg ha]
    refine (hout fun hmem => ha ?_).trans ExtTreeMap.getElem?_empty
    rw [List.map_map] at hmem
    obtain ⟨u, hu, rfl⟩ := List.mem_map.mp hmem
    exact ExtTreeSet.mem_toList.mp hu

theorem rows_derived : Derived s next (s.replaceRows changes).1 ∅ (s.replaceRows changes).2 := by
  have hnew : ∀ a b, b ∈ s.rederive changes.inserted changes.removed a ↔ TransGen next a b :=
    fun a b => mem_rederive h hs
  have hold : ∀ a b, s.contains a b = true ↔ TransGen s.Edge a b := fun a b => contains_iff h
  have hunchanged : ∀ a b, a ∉ s.affected changes → (TransGen next a b ↔ TransGen s.Edge a b) :=
    fun a b ha => reaches_of_not_affected h hs ha b
  refine ⟨⟨fun a b hgained hnot => ?_, fun a b hlost hnot => ?_, fun a b hiff => ?_⟩, fun a b => ?_⟩
  · rw [coeff_replaceRows, if_pos (by by_contra ha; exact hnot ((hunchanged a b ha).mp hgained)),
      if_pos ((hnew a b).mpr hgained), if_neg (fun hc => hnot ((hold a b).mp hc)), sub_zero]
  · rw [coeff_replaceRows, if_pos (by by_contra ha; exact hnot ((hunchanged a b ha).mpr hlost)),
      if_neg (fun hc => hnot ((hnew a b).mp hc)), if_pos ((hold a b).mpr hlost), zero_sub]
  · rw [coeff_replaceRows]
    by_cases hab : TransGen s.Edge a b
    · rw [if_pos ((hnew a b).mpr (hiff.mp hab)), if_pos ((hold a b).mpr hab), sub_self, ite_self]
    · rw [if_neg fun hc => hab (hiff.mpr ((hnew a b).mp hc)), if_neg fun hc => hab ((hold a b).mp hc),
        sub_self, ite_self]
  · have hnone : ¬ (∅ : Adjacency V).Has a b := not_has_empty
    rw [lookup_replaceRows]
    by_cases ha : a ∈ s.affected changes
    · rw [if_pos ha, elim_some, hnew]
      tauto
    · have := hunchanged a b ha
      rw [if_neg ha, elim_none]
      tauto

end IncrementalReachability

end FrankenGraph.Zset

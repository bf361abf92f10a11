import FrankenGraph.Zset.Cores

/-!
# Peeling finds core numbers

The queue of `peel` holds the degrees of the vertices that are left, so the vertex it takes is one of
least degree, and none of its consistency checks fails. When the region is complete, the degree with
which a vertex is taken is its core number.

Results:
* `Peeling.lower_all`: what taking a vertex does to the degrees
* `Peeling.Inv.taken`: one round keeps the invariant
* `Peeling.peel_spec`: `peel` returns the core numbers, unless a degree overflows
-/

namespace FrankenGraph.Zset.Peeling

open List Option Std.ExtTreeSet Std.ExtTreeMap Finset

open Std (ExtTreeMap ExtTreeSet)

variable {V : Type} [LinearOrder V]

/-- Two vertices are joined by an edge of the simple graph after the tick. -/
def Joined (s : IncrementalComponents V) (update : ComponentUpdate V) (a b : V) : Prop :=
  b ∈ adjacent s update a ∧ retained update a b = true

/-- What `peel` relies on: a neighbour is listed once, and the region is complete. -/
structure Complete (s : IncrementalComponents V) (update : ComponentUpdate V) : Prop where
  distinct : ∀ v, (adjacent s update v).Nodup
  symm : ∀ a b, Joined s update a b → Joined s update b a
  closed : ∀ a b, a ∈ update.labels → Joined s update a b → b ∈ update.labels

/-- The vertices of the region. -/
def region (update : ComponentUpdate V) : Finset V :=
  update.labels.keySet

/-- The queue holds the degrees. -/
def Agrees (p : Peeling V) : Prop :=
  ∀ (d : Nat) (u : V), (d, u) ∈ p.queue ↔ p.degrees[u]? = some d

variable {s : IncrementalComponents V} {update : ComponentUpdate V}

variable {v : V}

theorem mem_region : v ∈ region update ↔ v ∈ update.labels := by
  rw [region, BTreeMap.mem_keySet, mem_iff_isSome_getElem?, isSome_iff_exists]

/-! ## Degrees -/

variable {l : List V}

/-- The neighbours are counted, unless the count overflows. -/
theorem count_spec (hregion : ∀ b ∈ l, retained update v b = true → b ∈ update.labels)
    (degree : Nat) :
    l.foldlM (countNeighbor update v) degree = .error .degreeOverflow ∨
      l.foldlM (countNeighbor update v) degree =
        .ok (degree + (l.filter (retained update v)).length) := by
  induction l generalizing degree with
  | nil => exact .inr rfl
  | cons b l ih =>
    have hrest : ∀ b ∈ l, retained update v b = true → b ∈ update.labels := fun b hb =>
      hregion b (mem_cons_of_mem _ hb)
    rw [foldlM_cons]
    by_cases hretained : retained update v b = true
    · have hcontains : update.labels.contains b = true :=
        contains_iff_mem.mpr (hregion b mem_cons_self hretained)
      rw [filter_cons_of_pos hretained, length_cons]
      by_cases hmax : degree = u64Max
      · left
        rw [countNeighbor, hretained, hcontains, if_pos hmax]
        rfl
      · have hcount : countNeighbor update v degree b = .ok (degree + 1) := by
          rw [countNeighbor, hretained, hcontains, if_neg hmax]
          rfl
        have hsum : degree + ((l.filter (retained update v)).length + 1) =
            degree + 1 + (l.filter (retained update v)).length := by
          omega
        rw [hcount, hsum]
        exact ih hrest (degree + 1)
    · have hcount : countNeighbor update v degree b = .ok degree := by
        rw [countNeighbor, Bool.eq_false_iff.mpr hretained]
        rfl
      rw [hcount, filter_cons_of_neg hretained]
      exact ih hrest degree

/-- The neighbours counted for a vertex of a complete region are those in the region. -/
theorem length_filter_retained (h : Complete s update) (hv : v ∈ update.labels) :
    ((adjacent s update v).filter (retained update v)).length =
      degreeIn (Joined s update) (region update) v := by
  classical
  rw [degreeIn, ← List.toFinset_card_of_nodup ((h.distinct v).filter _)]
  congr 1
  ext u
  rw [List.mem_toFinset, List.mem_filter, Finset.mem_filter, mem_region]
  exact ⟨fun hu => ⟨h.closed v u hv hu, hu⟩, fun hu => hu.2⟩

/-- The degrees of the vertices seen so far. -/
structure Counted (s : IncrementalComponents V) (update : ComponentUpdate V) (seen : List V)
    (p : Peeling V) : Prop where
  agrees : p.Agrees
  degrees_iff : ∀ (u : V) (d : Nat), p.degrees[u]? = some d ↔
    u ∈ seen ∧ d = degreeIn (Joined s update) (region update) u
  numbers : p.numbers = ∅

variable {seen : List V} {p : Peeling V}

theorem Counted.enqueue (hp : Counted s update seen p) (v : V) : Counted s update (seen ++ [v])
      { p with
        degrees := p.degrees.insert v (degreeIn (Joined s update) (region update) v)
        queue := p.queue.insert (degreeIn (Joined s update) (region update) v, v) } := by
  have hdegrees : ∀ (u : V) (d : Nat),
      (p.degrees.insert v (degreeIn (Joined s update) (region update) v))[u]? = some d ↔
        u ∈ seen ++ [v] ∧ d = degreeIn (Joined s update) (region update) u := by
    intro u d
    rw [ExtTreeMap.getElem?_insert, List.mem_append, List.mem_singleton]
    by_cases huv : v = u
    · subst huv
      simp [eq_comm]
    · simp [huv, Ne.symm huv, hp.degrees_iff]
  refine ⟨fun d u => ?_, hdegrees, hp.numbers⟩
  rw [hdegrees, ExtTreeSet.mem_insert, Std.compare_eq_iff_eq, hp.agrees, hp.degrees_iff,
    List.mem_append, List.mem_singleton, Prod.mk.injEq]
  constructor
  · rintro (⟨rfl, rfl⟩ | ⟨hseen, rfl⟩)
    · exact ⟨.inr rfl, rfl⟩
    · exact ⟨.inl hseen, rfl⟩
  · rintro ⟨hseen | rfl, rfl⟩
    · exact .inr ⟨hseen, rfl⟩
    · exact .inl ⟨rfl, rfl⟩

/-- The first loop counts the degrees of all its vertices, unless one overflows. -/
theorem enqueue_all (h : Complete s update) (hl : ∀ v ∈ l, v ∈ update.labels)
    (hp : Counted s update seen p) :
    l.foldlM (enqueue s update) p = .error .degreeOverflow ∨
      ∃ p', l.foldlM (enqueue s update) p = .ok p' ∧ Counted s update (seen ++ l) p' := by
  induction l generalizing seen p with
  | nil =>
    rw [append_nil]
    exact .inr ⟨p, rfl, hp⟩
  | cons v l ih =>
    have hv := hl v mem_cons_self
    have hregion : ∀ b ∈ adjacent s update v, retained update v b = true → b ∈ update.labels :=
      fun b hb hretained => h.closed v b hv ⟨hb, hretained⟩
    rw [foldlM_cons, enqueue]
    rcases count_spec hregion 0 with herror | hcount
    · rw [herror]
      exact .inl rfl
    · rw [hcount, Nat.zero_add, length_filter_retained h hv]
      have hrest := ih (fun u hu => hl u (mem_cons_of_mem _ hu)) (hp.enqueue v)
      rwa [append_assoc] at hrest

/-! ## Taking a vertex -/

/-- A degree above that of the vertex taken is lowered. -/
def lowered (degree old : Nat) : Nat :=
  if old ≤ degree then old else old - 1

theorem lower_spec (update : ComponentUpdate V) (hp : p.Agrees) (v : V) (degree : Nat) (n : V) :
    ∃ p', lower update v degree p n = .ok p' ∧ p'.Agrees ∧ p'.numbers = p.numbers ∧
      ∀ u : V, p'.degrees[u]? = if n = u ∧ retained update v u = true then
        (p.degrees[u]?).map (lowered degree) else p.degrees[u]? := by
  unfold lower
  by_cases hretained : retained update v n = true
  · rw [hretained, Bool.not_true, if_neg Bool.false_ne_true]
    cases hold : p.degrees[n]? with
    | none =>
      refine ⟨p, rfl, hp, rfl, fun u => ?_⟩
      split_ifs with hu
      · rw [← hu.1, hold]
        rfl
      · rfl
    | some old =>
      by_cases hle : old ≤ degree
      · refine ⟨p, if_pos hle, hp, rfl, fun u => ?_⟩
        split_ifs with hu
        · rw [← hu.1, hold, Option.map_some, lowered, if_pos hle]
        · rfl
      · have hcontains : p.queue.contains (old, n) = true :=
          ExtTreeSet.contains_iff_mem.mpr ((hp old n).mpr hold)
        dsimp only
        rw [if_neg hle, hcontains]
        refine ⟨_, rfl, fun d u => ?_, rfl, fun u => ?_⟩
        · rw [ExtTreeSet.mem_insert, ExtTreeSet.mem_erase, hp, ExtTreeMap.getElem?_insert]
          simp only [ne_eq, Std.compare_eq_iff_eq, Prod.mk.injEq]
          by_cases hnu : n = u
          · subst hnu
            simp only [hold, Option.some.injEq, and_true, if_true]
            tauto
          · simp [hnu]
        · rw [ExtTreeMap.getElem?_insert]
          simp only [Std.compare_eq_iff_eq]
          by_cases hnu : n = u
          · subst hnu
            rw [if_pos rfl, if_pos ⟨rfl, hretained⟩, hold, Option.map_some, lowered, if_neg hle]
          · rw [if_neg hnu, if_neg fun hboth => hnu hboth.1]
  · refine ⟨p, if_pos (by rw [Bool.eq_false_iff.mpr hretained]; rfl), hp, rfl, fun u => ?_⟩
    split_ifs with hu
    · exact absurd (hu.1 ▸ hu.2) hretained
    · rfl

/-- The loop over distinct neighbours lowers each of their degrees once. -/
theorem lower_all (update : ComponentUpdate V) (hl : l.Nodup) (hp : p.Agrees) (v : V)
    (degree : Nat) :
    ∃ p', l.foldlM (lower update v degree) p = .ok p' ∧ p'.Agrees ∧ p'.numbers = p.numbers ∧
      ∀ u : V, p'.degrees[u]? = if u ∈ l ∧ retained update v u = true then
        (p.degrees[u]?).map (lowered degree) else p.degrees[u]? := by
  induction l generalizing p with
  | nil => exact ⟨p, rfl, hp, rfl, fun u => (if_neg fun hu => not_mem_nil hu.1).symm⟩
  | cons n l ih =>
    obtain ⟨hn, hl⟩ := nodup_cons.mp hl
    obtain ⟨p₁, hok, hp₁, hnumbers₁, hdegrees₁⟩ := lower_spec update hp v degree n
    obtain ⟨p₂, hrest, hp₂, hnumbers₂, hdegrees₂⟩ := ih hl hp₁
    refine ⟨p₂, ?_, hp₂, hnumbers₂.trans hnumbers₁, fun u => ?_⟩
    · rw [foldlM_cons, hok]
      exact hrest
    · rw [hdegrees₂, hdegrees₁]
      by_cases hun : u = n
      · subst hun
        simp [hn]
      · simp [hun, Ne.symm hun]

/-- Where the second loop stands. -/
structure Inv (s : IncrementalComponents V) (update : ComponentUpdate V) (p : Peeling V) :
    Prop where
  agrees : p.Agrees
  shelled : ∃ shell, Shelled (Joined s update) (region update) shell p.degrees.keySet
    fun u => (p.degrees[u]?).getD 0
  numbers : ∀ (u : V) (k : Nat), p.numbers[u]? = some k →
    u ∈ region update ∧ IsCoreNumber (Joined s update) u k
  covered : ∀ u ∈ region update, u ∈ p.degrees.keySet ∨ ∃ k, p.numbers[u]? = some k

theorem Counted.inv (hp : Counted s update seen p)
    (hseen : ∀ u, u ∈ seen ↔ u ∈ update.labels) : Inv s update p := by
  have hkeys : p.degrees.keySet = region update := by
    ext u
    rw [BTreeMap.mem_keySet, mem_region, ← hseen]
    simp [hp.degrees_iff]
  refine ⟨hp.agrees, ⟨0, ?_⟩, fun u k hk => ?_, fun u hu => .inl (hkeys ▸ hu)⟩
  · rw [hkeys]
    refine Shelled.start fun u hu => ?_
    rw [(hp.degrees_iff u _).mpr ⟨(hseen u).mpr (mem_region.mp hu), rfl⟩, getD_some]
  · rw [hp.numbers, getElem?_empty] at hk
    cases hk

variable {degree : Nat}

/-- The queue gives a vertex of least degree. -/
theorem least_of_min (hp : p.Agrees) (hmin : p.queue.first? = some (degree, v)) :
    p.degrees[v]? = some degree ∧ ∀ (u : V) (d : Nat), p.degrees[u]? = some d → degree ≤ d := by
  obtain ⟨hmem, hleast⟩ := BTreeSet.first?_eq_some hmin
  refine ⟨(hp degree v).mp hmem, fun u d hd => ?_⟩
  have hle := hleast (d, u) ((hp d u).mpr hd)
  change ((compare degree d).then (compare v u)).isLE at hle
  by_contra hlt
  rw [Nat.compare_eq_gt.mpr (Nat.lt_of_not_le hlt)] at hle
  cases hle

/-- What a round that takes a vertex does. -/
structure Taken (s : IncrementalComponents V) (update : ComponentUpdate V) (p : Peeling V)
    (degree : Nat) (v : V) (p' : Peeling V) : Prop where
  agrees : p'.Agrees
  numbers : p'.numbers = p.numbers.insert v degree
  gone : p'.degrees[v]? = none
  near : ∀ u : V, v ≠ u → Joined s update v u →
    p'.degrees[u]? = (p.degrees[u]?).map (lowered degree)
  far : ∀ u : V, v ≠ u → ¬ Joined s update v u → p'.degrees[u]? = p.degrees[u]?

/-- A round with a vertex left takes one, and does not fail. -/
theorem popFirst_taken (h : Complete s update) (hp : p.Agrees)
    (hmin : p.queue.first? = some (degree, v)) :
    ∃ p', popFirst s update p = some (.ok p') ∧ Taken s update p degree v p' := by
  obtain ⟨hv, -⟩ := least_of_min hp hmin
  have hagrees : Agrees
      { p with degrees := p.degrees.erase v, queue := p.queue.erase (degree, v) } := by
    intro d u
    dsimp only
    rw [ExtTreeSet.mem_erase, hp, ExtTreeMap.getElem?_erase]
    simp only [ne_eq, Std.compare_eq_iff_eq, Prod.mk.injEq]
    by_cases hvu : v = u
    · subst hvu
      simp only [hv, Option.some.injEq, and_true, if_true, reduceCtorEq, iff_false]
      tauto
    · simp [hvu]
  obtain ⟨p₁, hok, hagrees₁, hnumbers₁, hdegrees₁⟩ := lower_all update (h.distinct v) hagrees v degree
  refine ⟨{ p₁ with numbers := p₁.numbers.insert v degree }, ?_, hagrees₁, ?_, ?_, fun u hvu hu => ?_,
    fun u hvu hu => ?_⟩
  · unfold popFirst
    rw [hmin]
    dsimp only
    rw [if_neg (not_not_intro hv), hok]
    rfl
  · rw [hnumbers₁]
  · change p₁.degrees[v]? = none
    rw [hdegrees₁, ExtTreeMap.getElem?_erase]
    simp
  · change p₁.degrees[u]? = _
    unfold Joined at hu
    rw [hdegrees₁, if_pos hu, ExtTreeMap.getElem?_erase]
    simp [hvu]
  · change p₁.degrees[u]? = _
    unfold Joined at hu
    rw [hdegrees₁, if_neg hu, ExtTreeMap.getElem?_erase]
    simp [hvu]

theorem Taken.keySet_degrees {p' : Peeling V}
    (ht : Taken s update p degree v p') : p'.degrees.keySet = p.degrees.keySet.erase v := by
  ext u
  rw [Finset.mem_erase, BTreeMap.mem_keySet, BTreeMap.mem_keySet]
  by_cases hvu : v = u
  · subst hvu
    simp [ht.gone]
  · by_cases hu : Joined s update v u
    · simp [ht.near u hvu hu, Ne.symm hvu]
    · simp [ht.far u hvu hu, Ne.symm hvu]

/-- A round that takes a vertex of least degree keeps the invariant: its degree is its core
number. -/
theorem Inv.taken (h : Complete s update) {p' : Peeling V} (hp : Inv s update p)
    (hmin : p.queue.first? = some (degree, v)) (ht : Taken s update p degree v p') :
    Inv s update p' ∧ p'.degrees.size < p.degrees.size := by
  obtain ⟨hv, hleast⟩ := least_of_min hp.agrees hmin
  obtain ⟨shell, hshelled⟩ := hp.shelled
  have hkeys := ht.keySet_degrees
  have hvmem : v ∈ p.degrees.keySet := BTreeMap.mem_keySet.mpr ⟨degree, hv⟩
  have hvdegree : (p.degrees[v]?).getD 0 = degree := by rw [hv, Option.getD_some]
  have hleast' : ∀ u ∈ p.degrees.keySet, (p.degrees[v]?).getD 0 ≤ (p.degrees[u]?).getD 0 := by
    intro u hu
    obtain ⟨d, hd⟩ := BTreeMap.mem_keySet.mp hu
    rw [hvdegree, hd]
    exact hleast u d hd
  have hclosed : ∀ a b, a ∈ region update → Joined s update a b → b ∈ region update := by
    intro a b ha hab
    rw [mem_region] at ha ⊢
    exact h.closed a b ha hab
  have hcore := hshelled.isCoreNumber hvmem hleast' hclosed
  rw [hvdegree] at hcore
  refine ⟨⟨ht.agrees, ⟨degree, ?_⟩, fun u k hk => ?_, fun u hu => ?_⟩, ?_⟩
  · rw [hkeys, ← hvdegree]
    refine hshelled.pop hvmem hleast' hclosed h.symm ?_ ?_
    · intro u hu hvu hlt
      rw [ht.near u (Finset.ne_of_mem_erase hu).symm hvu]
      obtain ⟨d, hd⟩ := BTreeMap.mem_keySet.mp (Finset.mem_of_mem_erase hu)
      rw [hvdegree, hd, Option.getD_some] at hlt
      rw [hd, Option.map_some, lowered, if_neg (Nat.not_le.mpr hlt)]
      rfl
    · intro u hu hnot
      obtain ⟨d, hd⟩ := BTreeMap.mem_keySet.mp (Finset.mem_of_mem_erase hu)
      by_cases hvu : Joined s update v u
      · rw [ht.near u (Finset.ne_of_mem_erase hu).symm hvu]
        have hle : ¬ degree < d := by
          intro hlt
          refine hnot ⟨hvu, ?_⟩
          rwa [hvdegree, hd]
        rw [hd, Option.map_some, lowered, if_pos (Nat.not_lt.mp hle)]
      · rw [ht.far u (Finset.ne_of_mem_erase hu).symm hvu]
  · rw [ht.numbers, ExtTreeMap.getElem?_insert] at hk
    split_ifs at hk with hvu
    · rw [Std.compare_eq_iff_eq] at hvu
      cases hk
      exact hvu ▸ ⟨hshelled.subset hvmem, hcore⟩
    · exact hp.numbers u k hk
  · rw [hkeys, ht.numbers, Finset.mem_erase, ExtTreeMap.getElem?_insert]
    by_cases hvu : v = u
    · exact .inr ⟨degree, if_pos (Std.compare_eq_iff_eq.mpr hvu)⟩
    · rw [if_neg (fun heq => hvu (Std.compare_eq_iff_eq.mp heq))]
      exact (hp.covered u hu).imp (fun hmem => ⟨Ne.symm hvu, hmem⟩) id
  · rw [← BTreeMap.card_keySet, ← BTreeMap.card_keySet, hkeys]
    exact Finset.card_erase_lt_of_mem hvmem

/-- Unless a degree overflows, peeling a complete region gives the core numbers of its vertices. -/
theorem peel_spec (h : Complete s update) : peel s update = .error .degreeOverflow ∨
      ∃ numbers, peel s update = .ok numbers ∧ (∀ (u : V) (k : Nat), numbers[u]? = some k ↔
          u ∈ update.labels ∧ IsCoreNumber (Joined s update) u k) ∧
        ∀ u ∈ update.labels, ∃ k, numbers[u]? = some k := by
  have hempty : Counted s update [] { degrees := ∅, queue := ∅, numbers := ∅ } := by
    refine ⟨fun d u => ?_, fun u d => ?_, rfl⟩
    · simp [ExtTreeSet.not_mem_empty]
    · simp
  have hlabels : ∀ v ∈ update.labels.keys, v ∈ update.labels := fun v hv =>
    ExtTreeMap.mem_keys.mp hv
  unfold peel
  rcases enqueue_all h hlabels hempty with herror | ⟨p, hok, hcounted⟩
  · rw [herror]
    exact .inl rfl
  · have hinv : Inv s update p := hcounted.inv fun u => by
      rw [List.nil_append]
      exact ExtTreeMap.mem_keys
    have hstep : ∀ p next, Inv s update p → popFirst s update p = some next →
        ∃ p', next = .ok p' ∧ Inv s update p' ∧ p'.degrees.size < p.degrees.size := by
      intro p next hp hnext
      cases hmin : p.queue.first? with
      | none =>
        rw [popFirst, hmin] at hnext
        cases hnext
      | some first =>
        obtain ⟨p', hpop, htaken⟩ := popFirst_taken h hp.agrees hmin
        rw [hpop, Option.some.injEq] at hnext
        exact ⟨p', hnext.symm, hp.taken h hmin htaken⟩
    obtain ⟨p', hend, hinv', hnone⟩ :=
      iterateM_spec (fun p => p.degrees.size) hstep hinv le_rfl
    have hdone : ∀ u, u ∉ p'.degrees.keySet := by
      intro u hu
      obtain ⟨d, hd⟩ := BTreeMap.mem_keySet.mp hu
      cases hmin : p'.queue.first? with
      | none => exact BTreeSet.notMem_of_first?_eq_none hmin _ ((hinv'.agrees d u).mpr hd)
      | some first =>
        obtain ⟨p'', hpop, -⟩ := popFirst_taken h hinv'.agrees hmin
        rw [hpop] at hnone
        cases hnone
    have htotal : ∀ u ∈ update.labels, ∃ k, p'.numbers[u]? = some k := fun u hu =>
      (hinv'.covered u (mem_region.mpr hu)).resolve_left (hdone u)
    rw [hok]
    refine .inr ⟨p'.numbers, ?_, fun u k => ⟨fun hk => ?_, fun hk => ?_⟩, htotal⟩
    · change (iterateM (popFirst s update) p.degrees.size p >>= _) = _
      rw [hend]
      rfl
    · obtain ⟨hu, hcore⟩ := hinv'.numbers u k hk
      exact ⟨mem_region.mp hu, hcore⟩
    · obtain ⟨k', hk'⟩ := htotal u hk.1
      rw [hk', (hinv'.numbers u k' hk').2.unique hk.2]

end FrankenGraph.Zset.Peeling

import FrankenGraph.Library.Pointwise

/-!
# Z-sets

`fgdb-delta-types/src/zset.rs`: a finite map from keys to exact integer weights in
which no key of weight zero is kept, with every weight admitted and every request granted.

A Z-set is determined by its coefficients, and every operation is described by what it does to
them.

Results:
* `ZSet.ext_coeff`: a Z-set is determined by its coefficients
* `ZSet.coeff_accumulate`, `ZSet.coeff_foldl_accumulate`: accumulating adds
* `ZSet.coeff_integrate`: publishing what `prepareIntegration` stages adds the delta
* `ZSet.totalWeight_eq_sum`, `ZSet.totalWeight_eq_add`: the total is the sum of the coefficients
-/

namespace FrankenGraph.Zset

open Std List Option ExtTreeMap Finset

/-- `ZSet` (L64-67): weights by key, none of them zero. -/
@[ext]
structure ZSet (T : Type) [Ord T] [TransOrd T] where
  entries : BTreeMap T Int
  nonzero : ∀ (k : T) (w : Int), entries[k]? = some w → w ≠ 0

namespace ZSet

variable {T : Type} [Ord T] [TransOrd T]

/-- `new` (L123-127). -/
def new : ZSet T where
  entries := ∅
  nonzero k w h := by
    rw [ExtTreeMap.getElem?_empty] at h
    cases h

/-- `is_empty` (L131-133). -/
def isEmpty (z : ZSet T) : Bool :=
  z.entries.isEmpty

/-- `weight` (L135-137): nothing for a key of weight zero. -/
def weight (z : ZSet T) (k : T) : Option Int :=
  z.entries[k]?

/-- The weight of a key as a number. -/
def coeff (z : ZSet T) (k : T) : Int :=
  (z.weight k).getD 0

/-- `iter` (L138-140): the entries in the order of their keys. -/
def iter (z : ZSet T) : List (T × Int) :=
  z.entries.toList

variable [LawfulEqOrd T] [DecidableEq T]

/-- Give a key a weight that is not zero. -/
def insert (z : ZSet T) (k : T) (w : Int) (hw : w ≠ 0) : ZSet T where
  entries := z.entries.insert k w
  nonzero := by
    intro a v h
    rw [BTreeMap.lookup_insert] at h
    split_ifs at h
    · cases h
      exact hw
    · exact z.nonzero a v h

/-- Give a key a weight: zero removes the key. -/
def set (z : ZSet T) (k : T) (w : Int) : ZSet T :=
  if hw : w = 0 then
    { entries := z.entries.erase k
      nonzero := by
        intro a v h
        rw [BTreeMap.lookup_erase] at h
        split_ifs at h
        exact z.nonzero a v h }
  else z.insert k w hw

/-- `accumulate` (L157-188): a zero weight is ignored, a vacant key takes the weight, and an
occupied key takes the sum or is removed when the sum is zero. -/
def accumulate (z : ZSet T) (k : T) (w : Int) : ZSet T :=
  if hw : w = 0 then z
  else
    match z.weight k with
    | none => z.insert k w hw
    | some old => z.set k (old + w)

/-- `from_updates` (L145-155). -/
def fromUpdates (updates : List (T × Int)) : ZSet T :=
  updates.foldl (fun z e => z.accumulate e.1 e.2) new

omit [LawfulEqOrd T] [DecidableEq T] in
/-- `total_weight` (L190-204). -/
def totalWeight (z : ZSet T) : Int :=
  z.iter.foldl (fun total e => total + e.2) 0

/-- `map` (L208-222) with a projection that does not fail. -/
def map {U : Type} [Ord U] [TransOrd U] [LawfulEqOrd U] [DecidableEq U] (z : ZSet T)
    (project : T → U) : ZSet U :=
  z.iter.foldl (fun result e => result.accumulate (project e.1) e.2) new

omit [LawfulEqOrd T] [DecidableEq T] in
/-- `prepare_integration` (L319-338): the new weight of every key of the delta. -/
def prepareIntegration (z delta : ZSet T) : BTreeMap T Int :=
  delta.iter.foldl
    (fun replacements e => replacements.insert e.1
      (match z.weight e.1 with
      | some old => old + e.2
      | none => e.2)) ∅

/-- `publish` (L340-348). -/
def publish (z : ZSet T) (replacements : BTreeMap T Int) : ZSet T :=
  replacements.toList.foldl (fun z e => z.set e.1 e.2) z

/-- `integrate` (L292-300), through `prepare_update` and its commit. -/
def integrate (z delta : ZSet T) : ZSet T :=
  z.publish (z.prepareIntegration delta)

/-! ## Coefficients -/

variable {z z' : ZSet T} {k a : T} {w : Int}

section

omit [LawfulEqOrd T] [DecidableEq T]

theorem weight_eq_some : z.weight k = some w ↔ w ≠ 0 ∧ z.coeff k = w := by
  unfold coeff
  constructor
  · intro h
    rw [h]
    exact ⟨z.nonzero k w h, rfl⟩
  · rintro ⟨hw, h⟩
    cases hk : z.weight k with
    | none =>
      rw [hk] at h
      exact absurd h.symm hw
    | some v =>
      rw [hk] at h
      exact congrArg some h

theorem weight_eq_none : z.weight k = none ↔ z.coeff k = 0 := by
  constructor
  · intro h
    rw [coeff, h, getD_none]
  · intro h
    cases hk : z.weight k with
    | none => rfl
    | some v => exact absurd ((weight_eq_some.mp hk).2.symm.trans h) (weight_eq_some.mp hk).1

theorem weight_isSome : (z.weight k).isSome ↔ z.coeff k ≠ 0 := by
  rw [← ne_none_iff_isSome, Ne, weight_eq_none]

theorem weight_isSome_eq (z : ZSet T) (k : T) :
    (z.weight k).isSome = decide (z.coeff k ≠ 0) := by
  rw [Bool.eq_iff_iff, weight_isSome, decide_eq_true_iff]

end

omit [DecidableEq T] in
theorem ext_coeff (h : ∀ k, z.coeff k = z'.coeff k) : z = z' := by
  refine ZSet.ext (ext_getElem? fun k => ?_)
  change z.weight k = z'.weight k
  cases hk : z'.weight k with
  | none => exact weight_eq_none.mpr ((h k).trans (weight_eq_none.mp hk))
  | some w =>
    obtain ⟨hw, hcoeff⟩ := weight_eq_some.mp hk
    exact weight_eq_some.mpr ⟨hw, (h k).trans hcoeff⟩

omit [LawfulEqOrd T] [DecidableEq T] in
@[simp]
theorem coeff_new : (new : ZSet T).coeff k = 0 := by
  refine weight_eq_none.mp ?_
  exact getElem?_empty

omit [DecidableEq T] in
theorem isEmpty_iff : z.isEmpty ↔ ∀ k, z.coeff k = 0 := by
  rw [isEmpty, ExtTreeMap.isEmpty_iff]
  constructor
  · intro hempty k
    refine weight_eq_none.mp ?_
    rw [weight, hempty]
    exact ExtTreeMap.getElem?_empty
  · intro hzero
    refine ExtTreeMap.ext_getElem? fun k => ?_
    exact (weight_eq_none.mpr (hzero k)).trans ExtTreeMap.getElem?_empty.symm

@[simp]
theorem coeff_set : (z.set k w).coeff a = if k = a then w else z.coeff a := by
  unfold set
  split_ifs with hw hk hk
  · refine (weight_eq_none.mp ?_).trans hw.symm
    change (z.entries.erase k)[a]? = none
    rw [BTreeMap.lookup_erase, if_pos hk]
  · change ((z.entries.erase k)[a]?).getD 0 = z.coeff a
    rw [BTreeMap.lookup_erase, if_neg hk]
    rfl
  · change ((z.entries.insert k w)[a]?).getD 0 = w
    rw [BTreeMap.lookup_insert, if_pos hk]
    rfl
  · change ((z.entries.insert k w)[a]?).getD 0 = z.coeff a
    rw [BTreeMap.lookup_insert, if_neg hk]
    rfl

theorem insert_eq_set (hw : w ≠ 0) : z.insert k w hw = z.set k w :=
  (dif_neg hw).symm

@[simp]
theorem coeff_accumulate : (z.accumulate k w).coeff a = z.coeff a + if k = a then w else 0 := by
  unfold accumulate
  split_ifs with hw hk hk
  · rw [hw, add_zero]
  · rw [add_zero]
  · subst hk
    cases hold : z.weight k with
    | none => rw [insert_eq_set, coeff_set, if_pos rfl, weight_eq_none.mp hold, zero_add]
    | some old => rw [coeff_set, if_pos rfl, (weight_eq_some.mp hold).2]
  · rw [add_zero]
    cases hold : z.weight k with
    | none => rw [insert_eq_set, coeff_set, if_neg hk]
    | some old => rw [coeff_set, if_neg hk]

omit [LawfulEqOrd T] [DecidableEq T] in
/-- A loop whose rounds add to a coefficient adds their sum. -/
theorem coeff_foldl {α : Type} {step : ZSet T → α → ZSet T} {value : α → Int}
    (hstep : ∀ z x, (step z x).coeff a = z.coeff a + value x) (l : List α) (z : ZSet T) :
    (l.foldl step z).coeff a = z.coeff a + (l.map value).sum :=
  sum_foldl (fun z : ZSet T => z.coeff a) hstep l z

/-- Accumulating a list adds the weights its elements give to a key. -/
theorem coeff_foldl_accumulate {α : Type} (key : α → T) (value : α → Int) (l : List α)
    (z : ZSet T) (a : T) :
    (l.foldl (fun z x => z.accumulate (key x) (value x)) z).coeff a =
      z.coeff a + (l.map fun x => if key x = a then value x else 0).sum :=
  coeff_foldl (fun _ _ => coeff_accumulate) l z

omit [DecidableEq T] in
theorem mem_iter {e : T × Int} : e ∈ z.iter ↔ z.weight e.1 = some e.2 := by
  rcases e with ⟨k, w⟩
  exact mem_toList_iff_getElem?_eq_some

omit [DecidableEq T] in
theorem nodup_iter (z : ZSet T) : (z.iter.map Prod.fst).Nodup :=
  BTreeMap.nodup_keys _

/-- Only the entry of a key contributes to its coefficient. -/
theorem sum_iter_single (z : ZSet T) (a : T) (f : Int → Int) (hf : f 0 = 0) :
    (z.iter.map fun e => if e.1 = a then f e.2 else 0).sum = f (z.coeff a) := by
  rw [iter, BTreeMap.sum_single]
  change (z.weight a).elim 0 f = f (z.coeff a)
  cases ha : z.weight a with
  | none => rw [weight_eq_none.mp ha, hf]; rfl
  | some w => rw [(weight_eq_some.mp ha).2]; rfl

/-- The sum of the weights is the sum of the coefficients over any set that has the support. -/
theorem totalWeight_eq_sum {support : Finset T} (h : ∀ k, z.coeff k ≠ 0 → k ∈ support) :
    z.totalWeight = ∑ k ∈ support, z.coeff k := by
  have htotal : z.totalWeight = 0 + (z.iter.map Prod.snd).sum :=
    sum_foldl (fun n : Int => n) (fun _ _ => rfl) z.iter 0
  have hcoeff : z.iter.map Prod.snd = (z.iter.map Prod.fst).map z.coeff := by
    rw [List.map_map]
    refine List.map_congr_left fun e he => ?_
    exact (weight_eq_some.mp (mem_iter.mp he)).2.symm
  rw [htotal, zero_add, hcoeff, ← List.sum_toFinset _ z.nodup_iter]
  refine Finset.sum_subset ?_ ?_
  · intro k hk
    obtain ⟨e, he, rfl⟩ := List.mem_map.mp (List.mem_toFinset.mp hk)
    obtain ⟨hne, heq⟩ := weight_eq_some.mp (mem_iter.mp he)
    exact h _ (heq ▸ hne)
  · intro k _ hk
    refine weight_eq_none.mp ?_
    cases hw : z.weight k with
    | none => rfl
    | some w =>
      refine absurd (List.mem_toFinset.mpr (List.mem_map.mpr ⟨(k, w), mem_iter.mpr hw, rfl⟩)) hk

/-! ## Integration -/

omit [LawfulEqOrd T] [DecidableEq T] in
theorem next_eq (z : ZSet T) (k : T) (change : Int) : (match z.weight k with
      | some old => old + change
      | none => change) = z.coeff k + change := by
  unfold coeff
  cases z.weight k with
  | none => rw [getD_none, zero_add]
  | some old => rfl

/-- Every key of the delta gets its old weight plus its change. -/
theorem lookup_prepareIntegration (z delta : ZSet T) (k : T) : (z.prepareIntegration delta)[k]? =
      (delta.weight k).map fun change => z.coeff k + change := by
  unfold prepareIntegration
  simp only [next_eq]
  exact BTreeMap.lookup_build delta.entries (fun k change => z.coeff k + change) k

theorem lookup_weights {delta : ZSet T} (hw : (z.prepareIntegration delta)[k]? = some w) :
    w = z.coeff k + delta.coeff k ∧ delta.coeff k ≠ 0 := by
  rw [lookup_prepareIntegration, map_eq_some_iff] at hw
  obtain ⟨change, hchange, rfl⟩ := hw
  obtain ⟨hne, hcoeff⟩ := weight_eq_some.mp hchange
  exact ⟨by rw [hcoeff], hcoeff ▸ hne⟩

theorem weights_of_ne {delta : ZSet T} (h : z.coeff k + delta.coeff k ≠ z.coeff k) :
    (z.prepareIntegration delta)[k]? = some (z.coeff k + delta.coeff k) := by
  have hne : delta.coeff k ≠ 0 := by
    intro hzero
    rw [hzero, add_zero] at h
    exact h rfl
  rw [lookup_prepareIntegration, weight_eq_some.mpr ⟨hne, rfl⟩]
  rfl

/-- Refusing negative weights finds every key whose weight would become negative. -/
theorem refuses_none_iff {ε : Type} (error : ε) (hz : ∀ k, 0 ≤ z.coeff k) (delta : ZSet T) :
    (z.prepareIntegration delta).toList.findSome?
        (fun c => if c.2 < 0 then some error else none) = none ↔
      ∀ k, 0 ≤ z.coeff k + delta.coeff k := by
  rw [findSome?_eq_none_iff]
  constructor
  · intro hchecks k
    by_cases hne : z.coeff k + delta.coeff k = z.coeff k
    · rw [hne]
      exact hz k
    · have hcheck := hchecks (k, z.coeff k + delta.coeff k)
        (mem_toList_iff_getElem?_eq_some.mpr (weights_of_ne hne))
      split_ifs at hcheck with hneg
      exact Int.not_lt.mp hneg
  · intro hnonneg c hc
    have hnext := (lookup_weights (mem_toList_iff_getElem?_eq_some.mp hc)).1
    refine if_neg (Int.not_lt.mpr ?_)
    rw [hnext]
    exact hnonneg c.1

theorem coeff_publish (z : ZSet T) (replacements : BTreeMap T Int) (a : T) :
    (z.publish replacements).coeff a = (replacements[a]?).getD (z.coeff a) := by
  have hloop := BTreeMap.foldl_pointwise (fun _ w _ => w)
    (fun (z : ZSet T) (e : T × Int) (a : T) => coeff_set) replacements z a
  rw [publish, hloop]
  cases replacements[a]? <;> rfl

/-- The weight a key has once a prepared integration is published. -/
theorem coeff_publish_prepareIntegration (z delta : ZSet T) (a : T) :
    (z.publish (z.prepareIntegration delta)).coeff a = z.coeff a + delta.coeff a := by
  rw [coeff_publish, lookup_prepareIntegration]
  unfold coeff
  cases delta.weight a with
  | none => rw [map_none, getD_none, getD_none, add_zero]
  | some change => rfl

theorem coeff_integrate (z delta : ZSet T) (a : T) :
    (z.integrate delta).coeff a = z.coeff a + delta.coeff a :=
  coeff_publish_prepareIntegration z delta a

omit [LawfulEqOrd T] [DecidableEq T] in
/-- Projecting adds up the weights of the keys with one image. -/
theorem coeff_map {U : Type} [Ord U] [TransOrd U] [LawfulEqOrd U] [DecidableEq U] (z : ZSet T)
    (project : T → U) (u : U) :
    (z.map project).coeff u = (z.iter.map fun e => if project e.1 = u then e.2 else 0).sum := by
  rw [map, coeff_foldl_accumulate (fun e : T × Int => project e.1) (fun e => e.2), coeff_new,
    zero_add]

/-- The total of a sum. -/
theorem totalWeight_eq_add {z₁ z₂ : ZSet T} (h : ∀ k, z.coeff k = z₁.coeff k + z₂.coeff k) :
    z.totalWeight = z₁.totalWeight + z₂.totalWeight := by
  have hsupport : ∀ z : ZSet T, ∃ support : Finset T, ∀ k, z.coeff k ≠ 0 → k ∈ support := by
    intro z
    refine ⟨(z.iter.map Prod.fst).toFinset, fun k hk => ?_⟩
    obtain ⟨w, hw⟩ := isSome_iff_exists.mp (weight_isSome.mpr hk)
    exact mem_toFinset.mpr (mem_map.mpr ⟨(k, w), mem_iter.mpr hw, rfl⟩)
  obtain ⟨support₁, h₁⟩ := hsupport z₁
  obtain ⟨support₂, h₂⟩ := hsupport z₂
  have hz : ∀ k, z.coeff k ≠ 0 → k ∈ support₁ ∪ support₂ := by
    intro k hk
    rw [mem_union]
    by_contra hnot
    push Not at hnot
    refine hk ?_
    rw [h, not_ne_iff.mp (mt (h₁ k) hnot.1), not_ne_iff.mp (mt (h₂ k) hnot.2), add_zero]
  rw [totalWeight_eq_sum hz, totalWeight_eq_sum fun k hk => mem_union_left _ (h₁ k hk),
    totalWeight_eq_sum fun k hk => mem_union_right _ (h₂ k hk), ← sum_add_distrib]
  exact sum_congr rfl fun k _ => h k

end ZSet

end FrankenGraph.Zset

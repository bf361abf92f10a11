import FrankenGraph.Zset.ZSet

/-!
# The incremental join

`IncrementalJoin` (`zset/incremental.rs`): both inputs are kept arranged by key, and a
tick of one delta for each side stages the change of the join from the old arrangements and the two
deltas. Nothing is changed before the update is committed.

Results:
* `coeff_products`: what a nested loop over two groups adds
* `coeffAt_publishChanges`: committing adds the deltas to the arrangements
* `coeff_prepareFiltered`: the staged delta is the change of the filtered join
* `coeff_snapshotFiltered`: the full join of the arrangements
-/

namespace FrankenGraph.Zset

open Std List Option ExtTreeMap

/-- A fixed weight for each value of each key. -/
abbrev Arrangement (K V : Type) [Ord K] [TransOrd K] [Ord V] [TransOrd V] := BTreeMap K (ZSet V)

/-- Replacement weights for each changed key. -/
abbrev Changes (K V : Type) [Ord K] [TransOrd K] [Ord V] [TransOrd V] :=
  BTreeMap K (BTreeMap V Int)

section Arrangements

variable {K V : Type} [Ord K] [TransOrd K] [Ord V] [TransOrd V]

/-- `grouped` (L303-323): the rows of each key, in the order of the delta. -/
def grouped (delta : ZSet (K × V)) : BTreeMap K (List (V × Int)) :=
  delta.iter.foldl
    (fun groups e => groups.insert e.1.1 ((groups[e.1.1]?).getD [] ++ [(e.1.2, e.2)])) ∅

/-- The replacement weights of one group (L367-384). -/
def replacement (existing : Option (ZSet V)) (changes : List (V × Int)) : BTreeMap V Int :=
  changes.foldl
    (fun replacement e => replacement.insert e.1
      (match existing.bind fun group => group.weight e.1 with
      | some old => old + e.2
      | none => e.2)) ∅

/-- `prepare_changes` (L353-386). -/
def prepareChanges (base : Arrangement K V) (groups : BTreeMap K (List (V × Int))) :
    Changes K V :=
  groups.toList.foldl (fun prepared e => prepared.insert e.1 (replacement base[e.1]? e.2)) ∅

variable [LawfulEqOrd V] [DecidableEq V]

/-- `publish_changes` (L388-406): a group that becomes empty is removed, and an empty group is
not inserted. -/
def publishChanges (base : Arrangement K V) (changes : Changes K V) : Arrangement K V :=
  changes.toList.foldl
    (fun base e =>
      match base[e.1]? with
      | some group =>
        let group := group.publish e.2
        if group.isEmpty then base.erase e.1 else base.insert e.1 group
      | none =>
        let group := ZSet.new.publish e.2
        if group.isEmpty then base else base.insert e.1 group) base

end Arrangements

section Model

variable {K L R : Type} [Ord K] [TransOrd K] [Ord L] [TransOrd L] [Ord R] [TransOrd R]

/-- `IncrementalJoin` (L27-30). -/
structure IncrementalJoin (K L R : Type) [Ord K] [TransOrd K] [Ord L] [TransOrd L] [Ord R]
    [TransOrd R] where
  left : Arrangement K L
  right : Arrangement K R

/-- `JoinUpdate` (L267-272). -/
structure JoinUpdate (K L R : Type) [Ord K] [TransOrd K] [Ord L] [TransOrd L] [Ord R]
    [TransOrd R] where
  left : Changes K L
  right : Changes K R
  delta : ZSet (K × L × R)

/-- `new` (L49-54). -/
def IncrementalJoin.new : IncrementalJoin K L R where
  left := ∅
  right := ∅

variable [LawfulEqOrd K] [DecidableEq K] [LawfulEqOrd L] [DecidableEq L] [LawfulEqOrd R]
  [DecidableEq R]

/-- `add_product` (L325-351): a pair that the predicate refuses adds nothing. -/
def addProduct (predicate : K → L → R → Bool) (output : ZSet (K × L × R)) (key : K)
    (left : L × Int) (right : R × Int) : ZSet (K × L × R) :=
  if predicate key left.1 right.1 then
    output.accumulate (key, left.1, right.1) (left.2 * right.2)
  else output

/-- The nested loop over the rows of two groups of one key. -/
def products (predicate : K → L → R → Bool) (key : K) (lefts : List (L × Int))
    (rights : List (R × Int)) (output : ZSet (K × L × R)) : ZSet (K × L × R) :=
  lefts.foldl (fun output l =>
    rights.foldl (fun output r => addProduct predicate output key l r) output) output

namespace IncrementalJoin

/-- The three terms of the derivative (L139-168), over the old arrangements. -/
def derivative (s : IncrementalJoin K L R) (predicate : K → L → R → Bool)
    (left : BTreeMap K (List (L × Int))) (right : BTreeMap K (List (R × Int))) :
    ZSet (K × L × R) :=
  let output := left.toList.foldl (fun output e =>
    let output := match s.right[e.1]? with
      | some oldRight => products predicate e.1 e.2 oldRight.iter output
      | none => output
    match right[e.1]? with
    | some changedRight => products predicate e.1 e.2 changedRight output
    | none => output) ZSet.new
  right.toList.foldl (fun output e =>
    match s.left[e.1]? with
    | some oldLeft => products predicate e.1 oldLeft.iter e.2 output
    | none => output) output

/-- `prepare_filtered` (L125-176). -/
def prepareFiltered (s : IncrementalJoin K L R) (deltaLeft : ZSet (K × L))
    (deltaRight : ZSet (K × R)) (predicate : K → L → R → Bool) : JoinUpdate K L R :=
  let left := grouped deltaLeft
  let right := grouped deltaRight
  { left := prepareChanges s.left left
    right := prepareChanges s.right right
    delta := s.derivative predicate left right }

omit [LawfulEqOrd K] [DecidableEq K] [LawfulEqOrd L] [DecidableEq L] [LawfulEqOrd R]
  [DecidableEq R] in
/-- `prepare_inputs` (L191-210): the arrangements are staged, and the delta is empty. -/
def prepareInputs (s : IncrementalJoin K L R) (deltaLeft : ZSet (K × L))
    (deltaRight : ZSet (K × R)) : JoinUpdate K L R where
  left := prepareChanges s.left (grouped deltaLeft)
  right := prepareChanges s.right (grouped deltaRight)
  delta := ZSet.new

omit [LawfulEqOrd K] [DecidableEq K] in
/-- `JoinUpdate::commit` (L281-291). -/
def commit (s : IncrementalJoin K L R) (update : JoinUpdate K L R) :
    IncrementalJoin K L R × ZSet (K × L × R) :=
  ({ left := publishChanges s.left update.left, right := publishChanges s.right update.right },
    update.delta)

/-- `snapshot_filtered` (L239-260). -/
def snapshotFiltered (s : IncrementalJoin K L R) (predicate : K → L → R → Bool) :
    ZSet (K × L × R) :=
  s.left.toList.foldl (fun output e =>
    match s.right[e.1]? with
    | some right => products predicate e.1 e.2.iter right.iter output
    | none => output) ZSet.new

end IncrementalJoin

end Model

/-! ## Groups of rows -/

section Groups

variable {K V : Type} [Ord K] [TransOrd K] [Ord V] [TransOrd V]

/-- The weights a list of rows gives to a value. -/
def rowsCoeff [DecidableEq V] (rows : List (V × Int)) (v : V) : Int :=
  (rows.map fun e => if e.1 = v then e.2 else 0).sum

omit [Ord V] [TransOrd V] in
theorem rowsCoeff_cons [DecidableEq V] (e : V × Int) (rows : List (V × Int)) (v : V) :
    rowsCoeff (e :: rows) v = (if e.1 = v then e.2 else 0) + rowsCoeff rows v := by
  rw [rowsCoeff, map_cons, sum_cons]
  rfl

variable [DecidableEq K]

/-- The rows of a key in a delta. -/
def rowsOf (delta : ZSet (K × V)) (k : K) : List (V × Int) :=
  (delta.iter.filter fun e => e.1.1 = k).map fun e => (e.1.2, e.2)

variable [LawfulEqOrd K] [LawfulEqOrd V]

omit [LawfulEqOrd V] in
theorem lookup_grouped (delta : ZSet (K × V)) (k : K) :
    (grouped delta)[k]? = if rowsOf delta k = [] then none else some (rowsOf delta k) := by
  unfold grouped rowsOf
  induction delta.iter using reverseRecOn with
  | nil =>
    rw [filter_nil, map_nil, if_pos rfl]
    exact getElem?_empty
  | append_singleton l e ih =>
    rw [foldl_concat, BTreeMap.lookup_insert, filter_append, map_append]
    by_cases hk : e.1.1 = k
    · subst hk
      rw [if_pos rfl, ih, filter_cons_of_pos (by simp), filter_nil]
      split
      · next hnil => simp [hnil]
      · simp
    · rw [if_neg hk, ih, filter_cons_of_neg (by simpa using hk), filter_nil, map_nil, append_nil]

theorem mem_rowsOf {delta : ZSet (K × V)} {k : K} {e : V × Int} :
    e ∈ rowsOf delta k ↔ delta.weight (k, e.1) = some e.2 := by
  rw [rowsOf, List.mem_map]
  constructor
  · rintro ⟨⟨⟨k', v⟩, w⟩, hmem, rfl⟩
    obtain ⟨hiter, hk⟩ := List.mem_filter.mp hmem
    rw [← of_decide_eq_true hk]
    exact ZSet.mem_iter.mp hiter
  · intro h
    refine ⟨((k, e.1), e.2), List.mem_filter.mpr ⟨ZSet.mem_iter.mpr h, ?_⟩, rfl⟩
    exact decide_eq_true rfl

theorem nodup_rowsOf (delta : ZSet (K × V)) (k : K) : ((rowsOf delta k).map Prod.fst).Nodup := by
  have hdistinct := delta.nodup_iter
  rw [List.Nodup, List.pairwise_map] at hdistinct
  rw [rowsOf, List.map_map, List.Nodup, List.pairwise_map, List.pairwise_filter]
  refine hdistinct.imp ?_
  rintro ⟨⟨k₁, v₁⟩, w₁⟩ ⟨⟨k₂, v₂⟩, w₂⟩ hne h₁ h₂ hv
  refine hne (Prod.ext ?_ hv)
  exact (of_decide_eq_true h₁).trans (of_decide_eq_true h₂).symm

variable [DecidableEq V]

theorem rowsCoeff_iter (z : ZSet V) (v : V) : rowsCoeff z.iter v = z.coeff v :=
  z.sum_iter_single v id rfl

theorem rowsCoeff_rowsOf (delta : ZSet (K × V)) (k : K) (v : V) :
    rowsCoeff (rowsOf delta k) v = delta.coeff (k, v) := by
  obtain ⟨hin, hout⟩ := sum_single_of_nodup (nodup_rowsOf delta k) v id
  cases hv : delta.weight (k, v) with
  | none =>
    refine (hout fun hmem => ?_).trans (ZSet.weight_eq_none.mp hv).symm
    obtain ⟨e, he, rfl⟩ := mem_map.mp hmem
    cases (mem_rowsOf.mp he).symm.trans hv
  | some w => exact (hin w (mem_rowsOf.mpr hv)).trans (ZSet.weight_eq_some.mp hv).2.symm

/-! ## What committing does to an arrangement -/

omit [DecidableEq K] [LawfulEqOrd K] [LawfulEqOrd V] [DecidableEq V] in
/-- The weight of a value of a key in an arrangement. -/
def coeffAt (base : Arrangement K V) (k : K) (v : V) : Int :=
  (base[k]?).elim 0 fun group => group.coeff v

omit [DecidableEq K] [LawfulEqOrd K] [LawfulEqOrd V] [DecidableEq V] in
@[simp]
theorem coeffAt_empty (k : K) (v : V) : coeffAt (∅ : Arrangement K V) k v = 0 := by
  rw [coeffAt, getElem?_empty, elim_none]

/-- Every staged weight is the old weight plus its change. -/
theorem lookup_replacement (existing : Option (ZSet V)) {changes : List (V × Int)}
    (hdistinct : (changes.map Prod.fst).Nodup) (v : V) :
    ((replacement existing changes)[v]?).getD (existing.elim 0 fun group => group.coeff v) =
      (existing.elim 0 fun group => group.coeff v) + rowsCoeff changes v := by
  have hnext : ∀ e : V × Int, (match existing.bind fun group => group.weight e.1 with
      | some old => old + e.2
      | none => e.2) = (existing.elim 0 fun group => group.coeff e.1) + e.2 := by
    intro e
    cases existing with
    | none => exact (zero_add _).symm
    | some group => exact group.next_eq e.1 e.2
  have hstep : ∀ (m : BTreeMap V Int) (e : V × Int) (v : V),
      (m.insert e.1 ((existing.elim 0 fun group => group.coeff e.1) + e.2))[v]? =
        if e.1 = v then some ((existing.elim 0 fun group => group.coeff v) + e.2) else m[v]? := by
    intro m e v
    rw [BTreeMap.lookup_insert]
    split_ifs with hv
    · rw [hv]
    · rfl
  obtain ⟨hin, hout⟩ := foldl_pointwise
    (fun v change _ => some ((existing.elim 0 fun group => group.coeff v) + change)) hstep
    hdistinct ∅ v
  obtain ⟨hsum, hzero⟩ := sum_single_of_nodup hdistinct v id
  unfold replacement rowsCoeff
  simp only [hnext]
  by_cases hv : v ∈ changes.map Prod.fst
  · obtain ⟨e, he, rfl⟩ := mem_map.mp hv
    rw [hin e.2 he, getD_some]
    exact congrArg (_ + ·) (hsum e.2 he).symm
  · rw [hout hv, getElem?_empty, getD_none]
    exact ((congrArg (_ + ·) (hzero hv)).trans (add_zero _)).symm

/-- What a commit puts in place of a group. -/
def republished (group : Option (ZSet V)) (replacements : BTreeMap V Int) : Option (ZSet V) :=
  let group := (group.getD ZSet.new).publish replacements
  if group.isEmpty then none else some group

theorem lookup_publishChanges (base : Arrangement K V) (changes : Changes K V) (k : K) :
    (publishChanges base changes)[k]? =
      (changes[k]?).elim base[k]? fun replacements => republished base[k]? replacements := by
  refine BTreeMap.foldl_pointwise (fun _ replacements group => republished group replacements)
    ?_ changes base k
  intro base e k
  by_cases hk : e.1 = k
  · subst hk
    rw [if_pos rfl, republished]
    cases hgroup : base[e.1]? with
    | none =>
      dsimp only [getD_none]
      split_ifs
      · exact hgroup
      · rw [BTreeMap.lookup_insert, if_pos rfl]
    | some group =>
      dsimp only [getD_some]
      split_ifs
      · rw [BTreeMap.lookup_erase, if_pos rfl]
      · rw [BTreeMap.lookup_insert, if_pos rfl]
  · rw [if_neg hk]
    cases base[e.1]? with
    | none =>
      dsimp only
      split_ifs
      · rfl
      · rw [BTreeMap.lookup_insert, if_neg hk]
    | some group =>
      dsimp only
      split_ifs
      · rw [BTreeMap.lookup_erase, if_neg hk]
      · rw [BTreeMap.lookup_insert, if_neg hk]

omit [LawfulEqOrd K] [DecidableEq K] in
theorem elim_republished (group : Option (ZSet V)) (replacements : BTreeMap V Int) (v : V) :
    ((republished group replacements).elim 0 fun group => group.coeff v) =
      (replacements[v]?).getD (group.elim 0 fun group => group.coeff v) := by
  have hold : (group.getD ZSet.new).coeff v = group.elim 0 fun group => group.coeff v := by
    cases group with
    | none => exact ZSet.coeff_new
    | some group => rfl
  rw [← hold, ← ZSet.coeff_publish, republished]
  split_ifs with hempty
  · exact (ZSet.isEmpty_iff.mp hempty v).symm
  · rfl

theorem coeffAt_publishChanges (base : Arrangement K V) (delta : ZSet (K × V)) (k : K) (v : V) :
    coeffAt (publishChanges base (prepareChanges base (grouped delta))) k v =
      coeffAt base k v + delta.coeff (k, v) := by
  have hprepared : (prepareChanges base (grouped delta))[k]? =
      ((grouped delta)[k]?).map fun changes => replacement base[k]? changes :=
    BTreeMap.lookup_build (grouped delta) (fun k changes => replacement base[k]? changes) k
  rw [coeffAt, lookup_publishChanges, hprepared, lookup_grouped, ← rowsCoeff_rowsOf]
  split_ifs with hnil
  · rw [hnil]
    exact (add_zero _).symm
  · refine (elim_republished _ _ v).trans ?_
    exact lookup_replacement _ (nodup_rowsOf delta k) v

omit [LawfulEqOrd K] [DecidableEq K] [LawfulEqOrd V] [DecidableEq V] in
/-- No group of an arrangement is empty. -/
def Compact (base : Arrangement K V) : Prop :=
  ∀ (k : K) (group : ZSet V), base[k]? = some group → group.isEmpty = false

omit [LawfulEqOrd K] [DecidableEq K] [LawfulEqOrd V] [DecidableEq V] in
theorem Compact.empty : Compact (∅ : Arrangement K V) := by
  intro k group hgroup
  rw [getElem?_empty] at hgroup
  cases hgroup

theorem Compact.publishChanges {base : Arrangement K V} (h : Compact base)
    (changes : Changes K V) : Compact (publishChanges base changes) := by
  intro k group hgroup
  rw [lookup_publishChanges] at hgroup
  cases hk : changes[k]? with
  | none =>
    rw [hk] at hgroup
    exact h k group hgroup
  | some replacements =>
    rw [hk] at hgroup
    change republished base[k]? replacements = some group at hgroup
    rw [republished] at hgroup
    split_ifs at hgroup with hempty
    cases hgroup
    exact Bool.eq_false_iff.mpr hempty

end Groups

/-! ## The derivative -/

section Derivative

variable {K L R : Type} [Ord K] [TransOrd K] [Ord L] [TransOrd L] [Ord R] [TransOrd R]
  [LawfulEqOrd K] [DecidableEq K] [LawfulEqOrd L] [DecidableEq L] [LawfulEqOrd R]
  [DecidableEq R] {predicate : K → L → R → Bool} {key : K} {output : ZSet (K × L × R)}

theorem coeff_addProduct (left : L × Int) (right : R × Int) (k : K) (l : L) (r : R) :
    (addProduct predicate output key left right).coeff (k, l, r) = output.coeff (k, l, r) +
      if key = k ∧ predicate k l r then
        (if left.1 = l then left.2 else 0) * (if right.1 = r then right.2 else 0) else 0 := by
  unfold addProduct
  by_cases hkey : (key, left.1, right.1) = (k, l, r)
  · simp only [Prod.mk.injEq] at hkey
    obtain ⟨rfl, rfl, rfl⟩ := hkey
    cases predicate key left.1 right.1 with
    | true => simp
    | false => simp
  · have hsame : (if predicate key left.1 right.1 = true
        then output.accumulate (key, left.1, right.1) (left.2 * right.2) else output).coeff
          (k, l, r) = output.coeff (k, l, r) := by
      split_ifs
      · rw [ZSet.coeff_accumulate, if_neg hkey, add_zero]
      · rfl
    rw [hsame]
    simp only [Prod.mk.injEq] at hkey
    split_ifs with hboth hl hr <;> simp_all

theorem coeff_productsRow (left : L × Int) (rights : List (R × Int)) (k : K) (l : L) (r : R) :
    (rights.foldl (fun output right => addProduct predicate output key left right) output).coeff
        (k, l, r) = output.coeff (k, l, r) +
      if key = k ∧ predicate k l r then
        (if left.1 = l then left.2 else 0) * rowsCoeff rights r else 0 := by
  induction rights generalizing output with
  | nil => simp [rowsCoeff]
  | cons right rights ih =>
    rw [foldl_cons, ih, coeff_addProduct, rowsCoeff_cons]
    split_ifs <;> ring

theorem coeff_products (lefts : List (L × Int)) (rights : List (R × Int)) (k : K) (l : L) (r : R) :
    (products predicate key lefts rights output).coeff (k, l, r) = output.coeff (k, l, r) +
      if key = k ∧ predicate k l r then rowsCoeff lefts l * rowsCoeff rights r else 0 := by
  unfold products
  induction lefts generalizing output with
  | nil => simp [rowsCoeff]
  | cons left lefts ih =>
    rw [foldl_cons, ih, coeff_productsRow, rowsCoeff_cons]
    split_ifs <;> ring

/-- The loop over the rows of the left side and the group of an arrangement on the right. -/
theorem coeff_products_right (lefts : List (L × Int)) (base : Arrangement K R) (k : K) (l : L)
    (r : R) :
    (match base[key]? with
      | some right => products predicate key lefts right.iter output
      | none => output).coeff (k, l, r) = output.coeff (k, l, r) +
      if key = k then if predicate k l r then rowsCoeff lefts l * coeffAt base k r else 0 else 0 := by
  by_cases hk : key = k
  · subst hk
    unfold coeffAt
    cases base[key]? <;> simp [coeff_products, rowsCoeff_iter]
  · cases base[key]? <;> simp [coeff_products, hk]

/-- The loop over the group of an arrangement on the left and the rows of the right side. -/
theorem coeff_products_left (base : Arrangement K L) (rights : List (R × Int)) (k : K) (l : L)
    (r : R) :
    (match base[key]? with
      | some left => products predicate key left.iter rights output
      | none => output).coeff (k, l, r) = output.coeff (k, l, r) +
      if key = k then if predicate k l r then coeffAt base k l * rowsCoeff rights r else 0 else 0 := by
  by_cases hk : key = k
  · subst hk
    unfold coeffAt
    cases base[key]? <;> simp [coeff_products, rowsCoeff_iter]
  · cases base[key]? <;> simp [coeff_products, hk]

/-- The loop over the rows of the left side and the changed rows of the right side. -/
theorem coeff_products_grouped (lefts : List (L × Int)) (delta : ZSet (K × R)) (k : K) (l : L)
    (r : R) :
    (match (grouped delta)[key]? with
      | some changes => products predicate key lefts changes output
      | none => output).coeff (k, l, r) = output.coeff (k, l, r) +
      if key = k then
        if predicate k l r then rowsCoeff lefts l * delta.coeff (k, r) else 0 else 0 := by
  rw [lookup_grouped, ← rowsCoeff_rowsOf delta]
  by_cases hk : key = k
  · subst hk
    by_cases hnil : rowsOf delta key = []
    · simp [hnil, rowsCoeff]
    · simp [hnil, coeff_products]
  · by_cases hnil : rowsOf delta key = []
    · simp [hnil, hk]
    · simp [hnil, coeff_products, hk]

omit [LawfulEqOrd L] [DecidableEq L] [LawfulEqOrd R] [DecidableEq R] in
/-- A loop over the groups of a map adds to a triple what the group of its key adds. -/
theorem coeff_foldl_groups {ν : Type} {groups : BTreeMap K ν}
    {step : ZSet (K × L × R) → K × ν → ZSet (K × L × R)} (value : K → ν → L → R → Int)
    (hstep : ∀ output e k l r, (step output e).coeff (k, l, r) = output.coeff (k, l, r) +
      if e.1 = k then value k e.2 l r else 0) (output : ZSet (K × L × R)) (k : K) (l : L) (r : R) :
    (groups.toList.foldl step output).coeff (k, l, r) =
      output.coeff (k, l, r) + (groups[k]?).elim 0 fun group => value k group l r := by
  rw [← BTreeMap.sum_single groups k fun group => value k group l r]
  exact sum_foldl (fun output : ZSet (K × L × R) => output.coeff (k, l, r))
    (fun output e => hstep output e k l r) _ _

namespace IncrementalJoin

variable (s : IncrementalJoin K L R)

/-- The weight of a triple in the join of the arrangements, filtered by the predicate. -/
def joinCoeff (predicate : K → L → R → Bool) (k : K) (l : L) (r : R) : Int :=
  if predicate k l r then coeffAt s.left k l * coeffAt s.right k r else 0

theorem coeff_snapshotFiltered (k : K) (l : L) (r : R) :
    (s.snapshotFiltered predicate).coeff (k, l, r) = s.joinCoeff predicate k l r := by
  refine Eq.trans (coeff_foldl_groups (fun k (group : ZSet L) l r =>
      if predicate k l r then group.coeff l * coeffAt s.right k r else 0)
    (fun output e k l r => by
      rw [coeff_products_right, rowsCoeff_iter]) ZSet.new k l r) ?_
  rw [ZSet.coeff_new, zero_add]
  change _ = if predicate k l r then
    ((s.left[k]?).elim 0 fun group => group.coeff l) * coeffAt s.right k r else 0
  cases s.left[k]? with
  | none => simp
  | some group => rfl

variable (deltaLeft : ZSet (K × L)) (deltaRight : ZSet (K × R))

/-- The three terms of the change of a product. -/
theorem coeff_derivative (k : K) (l : L) (r : R) :
    (s.derivative predicate (grouped deltaLeft) (grouped deltaRight)).coeff (k, l, r) =
      if predicate k l r then
        deltaLeft.coeff (k, l) * coeffAt s.right k r +
          deltaLeft.coeff (k, l) * deltaRight.coeff (k, r) +
          coeffAt s.left k l * deltaRight.coeff (k, r) else 0 := by
  unfold derivative
  rw [coeff_foldl_groups (fun k changes l r =>
      if predicate k l r then coeffAt s.left k l * rowsCoeff changes r else 0)
      (fun output e k l r => coeff_products_left s.left e.2 k l r),
    coeff_foldl_groups (fun k changes l r => if predicate k l r then
        rowsCoeff changes l * coeffAt s.right k r +
          rowsCoeff changes l * deltaRight.coeff (k, r) else 0)
      (fun output e k l r => by
        rw [coeff_products_grouped, coeff_products_right]
        split_ifs <;> ring),
    ZSet.coeff_new, zero_add, lookup_grouped, lookup_grouped, ← rowsCoeff_rowsOf deltaLeft,
    ← rowsCoeff_rowsOf deltaRight]
  by_cases hl : rowsOf deltaLeft k = [] <;> by_cases hr : rowsOf deltaRight k = [] <;>
    simp only [hl, hr, if_true, if_false, rowsCoeff, map_nil, sum_nil, elim_none,
      elim_some] <;> split_ifs <;> ring

/-! ## Ticks -/

/-- The arrangements after a commit do not depend on which preparation was used. -/
theorem commit_prepareFiltered : (s.commit (s.prepareFiltered deltaLeft deltaRight predicate)).1 =
      (s.commit (s.prepareInputs deltaLeft deltaRight)).1 :=
  rfl

theorem joinCoeff_commit (k : K) (l : L) (r : R) :
    (s.commit (s.prepareInputs deltaLeft deltaRight)).1.joinCoeff predicate k l r =
      if predicate k l r then
        (coeffAt s.left k l + deltaLeft.coeff (k, l)) *
          (coeffAt s.right k r + deltaRight.coeff (k, r)) else 0 := by
  rw [joinCoeff]
  dsimp only [commit, prepareInputs]
  rw [coeffAt_publishChanges, coeffAt_publishChanges]

theorem coeff_prepareFiltered (k : K) (l : L) (r : R) : s.joinCoeff predicate k l r +
        (s.prepareFiltered deltaLeft deltaRight predicate).delta.coeff (k, l, r) =
      (s.commit (s.prepareFiltered deltaLeft deltaRight predicate)).1.joinCoeff predicate k l r := by
  rw [commit_prepareFiltered, joinCoeff_commit, joinCoeff]
  dsimp only [prepareFiltered]
  rw [coeff_derivative]
  split_ifs <;> ring

end IncrementalJoin

end Derivative

end FrankenGraph.Zset

import FrankenGraph.Zset.Triangles

/-!
# What a triangle tick counts

The weight of a triple, and that a tick changes exactly the triples with a changed side, each once.

Results:
* `exists_opposite`: an edge of a triple determines its third vertex
* `triangleWeight_eq`: the weight of a triple before and after a tick
* `coeff_triangleChanges`: the staged delta is the change of every triple
-/

namespace FrankenGraph.Zset

open List Option

variable {V : Type} [LinearOrder V]

/-- What a triple counts for, by the multiplicities of its sides. -/
def tripleWeight (quantifier : TriangleQuantifier) (weight : V × V → Int) (t : V × V × V) : Int :=
  match quantifier with
  | .all => weight (t.1, t.2.1) * weight (t.1, t.2.2) * weight (t.2.1, t.2.2)
  | .distinct =>
    if 0 < weight (t.1, t.2.1) ∧ 0 < weight (t.1, t.2.2) ∧ 0 < weight (t.2.1, t.2.2) then 1 else 0

/-- A triple lists three different vertices in increasing order. -/
def Increasing (t : V × V × V) : Prop :=
  t.1 < t.2.1 ∧ t.2.1 < t.2.2

instance (t : V × V × V) : Decidable (Increasing t) :=
  inferInstanceAs (Decidable (_ ∧ _))

variable {t : V × V × V}

omit [LinearOrder V] in
theorem tripleWeight_eq_zero {quantifier : TriangleQuantifier} {weight : V × V → Int} {side : V × V}
    (hside : side ∈ sides t) (hzero : weight side = 0) :
    tripleWeight quantifier weight t = 0 := by
  simp only [sides, mem_cons, not_mem_nil, or_false] at hside
  unfold tripleWeight
  rcases hside with rfl | rfl | rfl <;> cases quantifier <;> simp [hzero]

omit [LinearOrder V] in
/-- Sides whose multiplicity, or for distinct triples whose presence, is unchanged leave the weight
of a triple unchanged. -/
theorem tripleWeight_congr {quantifier : TriangleQuantifier} {old new : V × V → Int}
    (hold : ∀ side, 0 ≤ old side) (hnew : ∀ side, 0 ≤ new side)
    (hall : quantifier = .all → ∀ side ∈ sides t, new side = old side)
    (hpresent : ∀ side ∈ sides t, (old side ≠ 0 ↔ new side ≠ 0)) :
    tripleWeight quantifier new t = tripleWeight quantifier old t := by
  unfold tripleWeight
  cases quantifier with
  | all =>
    have h := hall rfl
    simp only [sides, mem_cons, not_mem_nil, or_false, forall_eq_or_imp, forall_eq] at h
    obtain ⟨h₁, h₂, h₃⟩ := h
    dsimp only
    rw [h₁, h₂, h₃]
  | distinct =>
    have hpos : ∀ side ∈ sides t, (0 < new side ↔ 0 < old side) := by
      intro side hside
      have h := hpresent side hside
      have h₁ := hold side
      have h₂ := hnew side
      constructor <;> intro hlt <;> by_contra hnot <;> omega
    simp only [sides, mem_cons, not_mem_nil, or_false, forall_eq_or_imp, forall_eq] at hpos
    obtain ⟨h₁, h₂, h₃⟩ := hpos
    simp only [h₁, h₂, h₃]

theorem increasing_sortedTriple {a b third : V} (hab : a < b) (ha : third ≠ a) (hb : third ≠ b) :
    Increasing (sortedTriple a b third) := by
  unfold sortedTriple
  split_ifs with h₁ h₂
  · exact ⟨h₁, hab⟩
  · exact ⟨lt_of_le_of_ne (not_lt.mp h₁) ha.symm, h₂⟩
  · exact ⟨hab, lt_of_le_of_ne (not_lt.mp h₂) hb.symm⟩

/-- A side of a triple determines the third vertex, and the two other sides join that vertex to the
ends of the side. -/
theorem exists_opposite (ht : Increasing t) {edge : V × V} (hedge : edge ∈ sides t) :
    ∃ v, v ≠ edge.1 ∧ v ≠ edge.2 ∧ sortedTriple edge.1 edge.2 v = t ∧
      canonical edge.1 v ∈ sides t ∧ canonical edge.2 v ∈ sides t ∧
      ∀ u, u ≠ edge.1 → u ≠ edge.2 → sortedTriple edge.1 edge.2 u = t → u = v := by
  obtain ⟨x, y, z⟩ := t
  obtain ⟨hxy, hyz⟩ : x < y ∧ y < z := ht
  have hxz := hxy.trans hyz
  simp only [sides, mem_cons, not_mem_nil, or_false] at hedge ⊢
  rcases hedge with rfl | rfl | rfl
  · refine ⟨z, hxz.ne', hyz.ne', ?_, ?_, ?_, ?_⟩
    · simp [sortedTriple, hxz.not_gt, hyz.not_gt]
    · simp [(canonical_of_lt hxz).1]
    · simp [(canonical_of_lt hyz).1]
    · intro u hux huy hu
      unfold sortedTriple at hu
      split_ifs at hu with h₁ h₂ <;> simp only [Prod.mk.injEq] at hu
      · exact absurd hu.1 hux
      · exact absurd hu.2.1 huy
      · exact hu.2.2
  · refine ⟨y, hxy.ne', hyz.ne, ?_, ?_, ?_, ?_⟩
    · simp [sortedTriple, hxy.not_gt, hyz]
    · simp [(canonical_of_lt hxy).1]
    · simp [(canonical_of_lt hyz).2]
    · intro u hux huz hu
      unfold sortedTriple at hu
      split_ifs at hu with h₁ h₂ <;> simp only [Prod.mk.injEq] at hu
      · exact absurd hu.1 hux
      · exact hu.2.1
      · exact absurd hu.2.2 huz
  · refine ⟨x, hxy.ne, hxz.ne, ?_, ?_, ?_, ?_⟩
    · simp [sortedTriple, hxy]
    · simp [(canonical_of_lt hxy).2]
    · simp [(canonical_of_lt hxz).2]
    · intro u huy huz hu
      unfold sortedTriple at hu
      split_ifs at hu with h₁ h₂ <;> simp only [Prod.mk.injEq] at hu
      · exact hu.1
      · exact absurd hu.2.1 huy
      · exact absurd hu.2.2 huz

theorem lt_of_mem_sides (ht : Increasing t) {side : V × V} (hside : side ∈ sides t) :
    side.1 < side.2 := by
  simp only [sides, mem_cons, not_mem_nil, or_false] at hside
  rcases hside with rfl | rfl | rfl
  · exact ht.1
  · exact ht.1.trans ht.2
  · exact ht.2

namespace IncrementalTriangles

variable {s : IncrementalTriangles V}

/-- The code's product of three weights. -/
theorem product_eq (quantifier : TriangleQuantifier) (w₁ w₂ w₃ : Option Int) (h₁ : 0 ≤ w₁.getD 0)
    (h₂ : 0 ≤ w₂.getD 0) (h₃ : 0 ≤ w₃.getD 0) :
    (if [w₁, w₂, w₃].any fun weight => weight.all (· = 0) then 0
      else if quantifier = .distinct then 1
      else ([w₁, w₂, w₃].filterMap id).foldl (· * ·) 1) =
      (match quantifier with
      | .all => w₁.getD 0 * w₂.getD 0 * w₃.getD 0
      | .distinct => if 0 < w₁.getD 0 ∧ 0 < w₂.getD 0 ∧ 0 < w₃.getD 0 then 1 else 0 : Int) := by
  have hpos : ∀ w : Int, 0 ≤ w → (0 < w ↔ ¬ w = 0) := fun w hw => by omega
  rcases w₁ with _ | w₁ <;> rcases w₂ with _ | w₂ <;> rcases w₃ with _ | w₃ <;>
    cases quantifier <;> simp
  · simp only [getD_some] at h₁ h₂ h₃
    simp only [hpos _ h₁, hpos _ h₂, hpos _ h₃]
    split_ifs <;> tauto
  · rintro (rfl | rfl | rfl) <;> simp

/-- The weight the code gives to a triple. -/
theorem triangleWeight_eq {t : V × V × V} {replacements : Option (BTreeMap (V × V) Int)}
    (hnonneg : ∀ side, 0 ≤ (s.sideWeight replacements side).getD 0) :
    s.triangleWeight t replacements =
      tripleWeight s.quantifier (fun side => (s.sideWeight replacements side).getD 0) t :=
  product_eq s.quantifier _ _ _ (hnonneg (t.1, t.2.1)) (hnonneg (t.1, t.2.2))
    (hnonneg (t.2.1, t.2.2))

/-! ## A staged tick -/

/-- What the first loop of a tick has staged, against the multiplicities after the tick. -/
structure Staged (s : IncrementalTriangles V) (weights : BTreeMap (V × V) Int)
    (inserted : Adjacency V) (effective : BTreeSet (V × V)) (next : V × V → Int) : Prop where
  old_nonneg : ∀ e, 0 ≤ s.edges.coeff e
  next_nonneg : ∀ e, 0 ≤ next e
  weights_eq : ∀ e : V × V, (weights[e]?).getD (s.edges.coeff e) = next e
  effective_lt : ∀ e ∈ effective, e.1 < e.2
  unchanged : ∀ e, e.1 < e.2 → e ∉ effective →
    (s.quantifier = .all → next e = s.edges.coeff e) ∧ (s.edges.coeff e ≠ 0 ↔ next e ≠ 0)
  adjacent_iff : ∀ a b, s.neighbors.Has a b ∨ inserted.Has a b ↔
    a ≠ b ∧ (s.edges.coeff (canonical a b) ≠ 0 ∨ next (canonical a b) ≠ 0)
  disjoint : ∀ a b, s.neighbors.Has a b → ¬ inserted.Has a b

variable {weights : BTreeMap (V × V) Int} {inserted : Adjacency V} {effective : BTreeSet (V × V)}
  {next : V × V → Int}

variable {old : Adjacency V}

theorem adjacent_iff_has {inserted : Adjacency V} {a b : V} :
    adjacent old inserted a b = true ↔ old.Has a b ∨ inserted.Has a b := by
  rw [adjacent, Bool.or_eq_true, Std.ExtTreeSet.contains_iff_mem, Std.ExtTreeSet.contains_iff_mem]
  rfl

theorem mem_candidates {inserted : Adjacency V} {a b : V} :
    b ∈ candidates old inserted a ↔ old.Has a b ∨ inserted.Has a b := by
  rw [candidates, mem_append, Std.ExtTreeSet.mem_toList, Std.ExtTreeSet.mem_toList]
  rfl

theorem nodup_candidates {inserted : Adjacency V}
    (hdisjoint : ∀ a b, old.Has a b → ¬ inserted.Has a b) (a : V) :
    (candidates old inserted a).Nodup := by
  refine nodup_append.mpr ⟨BTreeSet.nodup_toList _, BTreeSet.nodup_toList _, ?_⟩
  rintro b hb c hc rfl
  exact hdisjoint a b (Std.ExtTreeSet.mem_toList.mp hb) (Std.ExtTreeSet.mem_toList.mp hc)

/-- The scanned and the probed vertex are the two ends of the edge. -/
theorem scanProbe_cases (s : IncrementalTriangles V) (inserted : Adjacency V) (edge : V × V) :
    s.scanProbe inserted edge = (edge.1, edge.2) ∨ s.scanProbe inserted edge = (edge.2, edge.1) := by
  unfold scanProbe
  split_ifs
  · exact .inl rfl
  · exact .inr rfl

theorem triangleChange_eq_some {edge : V × V} {probe third : V} {c : (V × V × V) × Int} :
    s.triangleChange weights inserted effective edge probe third = some c ↔
      (third ≠ edge.1 ∧ third ≠ edge.2 ∧ adjacent s.neighbors inserted probe third = true) ∧
        (sides (sortedTriple edge.1 edge.2 third)).find? (fun side => effective.contains side) =
          some edge ∧
        (sortedTriple edge.1 edge.2 third,
          s.triangleWeight (sortedTriple edge.1 edge.2 third) (some weights) +
            -s.triangleWeight (sortedTriple edge.1 edge.2 third) none) = c := by
  unfold triangleChange
  simp only
  split_ifs with hskip hfirst
  · refine ⟨False.elim, fun hc => ?_⟩
    rcases hskip with hskip | hskip | hskip
    · exact absurd hskip hc.1.1
    · exact absurd hskip hc.1.2.1
    · cases hskip.symm.trans hc.1.2.2
  · exact ⟨False.elim, fun hc => absurd hc.2.1 hfirst⟩
  · push Not at hskip hfirst
    rw [some.injEq]
    exact ⟨fun hc => ⟨⟨hskip.1, hskip.2.1, by simpa using hskip.2.2⟩, hfirst, hc⟩, fun hc => hc.2.2⟩

/-- What an edge and a third vertex add to a triple. -/
def contribution (s : IncrementalTriangles V) (weights : BTreeMap (V × V) Int)
    (inserted : Adjacency V) (effective : BTreeSet (V × V)) (t : V × V × V) (edge : V × V)
    (probe third : V) : Int :=
  match s.triangleChange weights inserted effective edge probe third with
  | none => 0
  | some (t', change) => if t' = t then change else 0

theorem coeff_triangleChanges_sum (s : IncrementalTriangles V) (t : V × V × V) :
    (s.triangleChanges weights inserted effective).coeff t = (effective.toList.map fun edge =>
        ((candidates s.neighbors inserted (s.scanProbe inserted edge).1).map
          (s.contribution weights inserted effective t edge (s.scanProbe inserted edge).2)).sum).sum
      := by
  unfold triangleChanges
  refine Eq.trans (ZSet.coeff_foldl ?_ _ _) (by rw [ZSet.coeff_new, zero_add])
  intro output edge
  generalize s.scanProbe inserted edge = ends
  refine ZSet.coeff_foldl ?_ _ _
  intro output third
  unfold contribution
  cases s.triangleChange weights inserted effective edge ends.2 third with
  | none => exact (add_zero _).symm
  | some c =>
    dsimp only
    split_ifs with hzero hc hc
    · rw [ZSet.coeff_accumulate, if_pos hc]
    · rw [ZSet.coeff_accumulate, if_neg hc]
    · rw [not_ne_iff.mp hzero, add_zero]
    · rw [add_zero]

/-- An edge contributes to a triple only as its first changed side, with the opposite vertex. -/
theorem contribution_ne_zero {t : V × V × V} {edge : V × V} {probe third : V}
    (h : s.contribution weights inserted effective t edge probe third ≠ 0) :
    third ≠ edge.1 ∧ third ≠ edge.2 ∧ sortedTriple edge.1 edge.2 third = t ∧
      (sides t).find? (fun side => effective.contains side) = some edge := by
  unfold contribution at h
  cases hchange : s.triangleChange weights inserted effective edge probe third with
  | none =>
    rw [hchange] at h
    exact absurd rfl h
  | some c =>
    rw [hchange] at h
    dsimp only at h
    split_ifs at h with ht
    · obtain ⟨⟨h₁, h₂, -⟩, hfirst, rfl⟩ := triangleChange_eq_some.mp hchange
      subst ht
      exact ⟨h₁, h₂, rfl, hfirst⟩
    · exact absurd rfl h

namespace Staged

variable (h : Staged s weights inserted effective next)

include h

theorem sideWeight_some : ∀ side, (s.sideWeight (some weights) side).getD 0 = next side := by
  intro side
  rw [← h.weights_eq, sideWeight, bind_some]
  cases weights[side]? with
  | none => rfl
  | some w => rfl

theorem change_eq (t : V × V × V) : s.triangleWeight t (some weights) + -s.triangleWeight t none =
      tripleWeight s.quantifier next t - tripleWeight s.quantifier s.edges.coeff t := by
  have hnext : (fun side => (s.sideWeight (some weights) side).getD 0) = next :=
    funext h.sideWeight_some
  have hold : (fun side => (s.sideWeight none side).getD 0) = s.edges.coeff := rfl
  rw [triangleWeight_eq, triangleWeight_eq, hnext, hold, ← sub_eq_add_neg]
  · exact h.old_nonneg
  · intro side
    rw [h.sideWeight_some]
    exact h.next_nonneg side

variable {t : V × V × V}

/-- The weight of a triple without a changed side stays. -/
theorem tripleWeight_of_find?_eq_none (ht : Increasing t)
    (hnone : (sides t).find? (fun side => effective.contains side) = none) :
    tripleWeight s.quantifier next t = tripleWeight s.quantifier s.edges.coeff t := by
  have hside : ∀ side ∈ sides t, side.1 < side.2 ∧ side ∉ effective := by
    intro side hside
    have hnot := find?_eq_none.mp hnone side hside
    rw [Std.ExtTreeSet.contains_iff_mem] at hnot
    exact ⟨lt_of_mem_sides ht hside, hnot⟩
  refine tripleWeight_congr h.old_nonneg h.next_nonneg (fun hall side hmem => ?_)
    fun side hmem => ?_
  · exact (h.unchanged side (hside side hmem).1 (hside side hmem).2).1 hall
  · exact (h.unchanged side (hside side hmem).1 (hside side hmem).2).2

/-- A triple with a side that is present neither before nor after the tick counts for nothing. -/
theorem tripleWeight_of_not_adjacent {a b : V} (hab : a ≠ b) (hside : canonical a b ∈ sides t)
    (hnot : ¬ (s.neighbors.Has a b ∨ inserted.Has a b)) :
    tripleWeight s.quantifier next t = 0 ∧ tripleWeight s.quantifier s.edges.coeff t = 0 := by
  rw [h.adjacent_iff] at hnot
  push Not at hnot
  obtain ⟨hold, hnext⟩ := hnot hab
  exact ⟨tripleWeight_eq_zero hside hnext, tripleWeight_eq_zero hside hold⟩

/-- The opposite vertex contributes the change of the triple when the code finds it. -/
theorem contribution_opposite {edge : V × V} {probe third : V}
    (hfirst : (sides t).find? (fun side => effective.contains side) = some edge)
    (h₁ : third ≠ edge.1) (h₂ : third ≠ edge.2) (hsorted : sortedTriple edge.1 edge.2 third = t)
    (hadjacent : s.neighbors.Has probe third ∨ inserted.Has probe third) :
    s.contribution weights inserted effective t edge probe third =
      tripleWeight s.quantifier next t - tripleWeight s.quantifier s.edges.coeff t := by
  have hchange : s.triangleChange weights inserted effective edge probe third = some _ :=
    triangleChange_eq_some.mpr ⟨⟨h₁, h₂, adjacent_iff_has.mpr hadjacent⟩, hsorted ▸ hfirst, rfl⟩
  rw [contribution, hchange]
  dsimp only
  rw [if_pos hsorted, hsorted, h.change_eq]

/-- The first changed side of a triple contributes the whole change of the triple, once. -/
theorem sum_first (ht : Increasing t) {edge : V × V}
    (hfirst : (sides t).find? (fun side => effective.contains side) = some edge) {scan probe : V}
    (hends : (scan, probe) = (edge.1, edge.2) ∨ (scan, probe) = (edge.2, edge.1)) :
    ((candidates s.neighbors inserted scan).map
        (s.contribution weights inserted effective t edge probe)).sum =
      tripleWeight s.quantifier next t - tripleWeight s.quantifier s.edges.coeff t := by
  obtain ⟨v, hv₁, hv₂, hsorted, hside₁, hside₂, hunique⟩ :=
    exists_opposite ht (mem_of_find?_eq_some hfirst)
  have hscan : scan ≠ v ∧ canonical scan v ∈ sides t ∧ probe ≠ v ∧ canonical probe v ∈ sides t := by
    rcases hends with hends | hends <;> cases hends
    · exact ⟨hv₁.symm, hside₁, hv₂.symm, hside₂⟩
    · exact ⟨hv₂.symm, hside₂, hv₁.symm, hside₁⟩
  rw [sum_eq_single_of_nodup (nodup_candidates h.disjoint _) _ v]
  · by_cases hmem : v ∈ candidates s.neighbors inserted scan
    · rw [if_pos hmem]
      by_cases hprobe : s.neighbors.Has probe v ∨ inserted.Has probe v
      · exact h.contribution_opposite hfirst hv₁ hv₂ hsorted hprobe
      · obtain ⟨hnext, hold⟩ := h.tripleWeight_of_not_adjacent hscan.2.2.1 hscan.2.2.2 hprobe
        rw [hnext, hold, sub_self, contribution]
        cases hchange : s.triangleChange weights inserted effective edge probe v with
        | none => rfl
        | some c =>
          obtain ⟨⟨-, -, hadjacent⟩, -, -⟩ := triangleChange_eq_some.mp hchange
          exact absurd (adjacent_iff_has.mp hadjacent) hprobe
    · rw [if_neg hmem]
      rw [mem_candidates] at hmem
      obtain ⟨hnext, hold⟩ := h.tripleWeight_of_not_adjacent hscan.1 hscan.2.1 hmem
      rw [hnext, hold, sub_self]
  · intro u _ hu
    by_contra hne
    obtain ⟨h₁, h₂, h₃, -⟩ := contribution_ne_zero hne
    exact hu (hunique u h₁ h₂ h₃)

theorem coeff_triangleChanges (t : V × V × V) :
    (s.triangleChanges weights inserted effective).coeff t = if Increasing t then
        tripleWeight s.quantifier next t - tripleWeight s.quantifier s.edges.coeff t
      else 0 := by
  rw [coeff_triangleChanges_sum]
  have hother : ∀ edge ∈ effective.toList,
      (sides t).find? (fun side => effective.contains side) ≠ some edge ∨ ¬ Increasing t →
      ((candidates s.neighbors inserted (s.scanProbe inserted edge).1).map
        (s.contribution weights inserted effective t edge (s.scanProbe inserted edge).2)).sum = 0 := by
    intro edge hedge hnot
    refine sum_eq_zero fun c hc => ?_
    obtain ⟨third, -, rfl⟩ := mem_map.mp hc
    by_contra hne
    obtain ⟨h₁, h₂, h₃, hfirst⟩ := contribution_ne_zero hne
    rcases hnot with hnot | hnot
    · exact hnot hfirst
    · have hlt := h.effective_lt edge (Std.ExtTreeSet.mem_toList.mp hedge)
      exact hnot (h₃ ▸ increasing_sortedTriple hlt h₁ h₂)
  split_ifs with ht
  · cases hfirst : (sides t).find? (fun side => effective.contains side) with
    | none =>
      rw [h.tripleWeight_of_find?_eq_none ht hfirst, sub_self]
      refine sum_eq_zero fun c hc => ?_
      obtain ⟨edge, hedge, rfl⟩ := mem_map.mp hc
      exact hother edge hedge (.inl (by rw [hfirst]; exact (some_ne_none _).symm))
    | some edge =>
      have hedge : edge ∈ effective.toList := by
        rw [Std.ExtTreeSet.mem_toList, ← Std.ExtTreeSet.contains_iff_mem]
        exact find?_some hfirst
      rw [sum_eq_single_of_nodup (BTreeSet.nodup_toList _) _ edge, if_pos hedge]
      · exact h.sum_first ht hfirst (s.scanProbe_cases inserted edge)
      · intro e he hne
        exact hother e he (.inl (by rw [hfirst]; exact fun heq => hne (some.inj heq).symm))
  · refine sum_eq_zero fun c hc => ?_
    obtain ⟨edge, hedge, rfl⟩ := mem_map.mp hc
    exact hother edge hedge (.inr ht)

end Staged

end IncrementalTriangles

end FrankenGraph.Zset

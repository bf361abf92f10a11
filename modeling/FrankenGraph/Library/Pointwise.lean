import FrankenGraph.Library.OrderedMap

/-!
# Loops that change one key at a time

A loop over the entries of a map often touches, for each entry, only what a structure holds at that
entry's key. Such a loop is described by what it does at one key: as the keys are distinct, a key is
changed by its own entry or not at all.

Results:
* `sum_foldl`: a loop that adds up
* `foldl_pointwise`: a loop over a list with distinct keys
* `BTreeMap.foldl_pointwise`: a loop over the entries of a map
* `sum_eq_single_of_nodup`, `BTreeMap.sum_single`: a sum to which one element contributes
* `BTreeMap.lookup_build`: a map that is built from the entries of another
-/

namespace FrankenGraph

open Std List Std.ExtTreeMap

/-- Pairs are compared by their first components, then by their second. -/
instance instOrdPair {α β : Type} [Ord α] [Ord β] : Ord (α × β) := lexOrd

instance instTransOrdTriple {α β γ : Type} [Ord α] [TransOrd α] [Ord β] [TransOrd β] [Ord γ]
    [TransOrd γ] : TransOrd (α × β × γ) := inferInstance

section Linear

variable {α β γ : Type} [LinearOrder α] [LinearOrder β] [LinearOrder γ]

instance instTransOrdLinear : TransOrd α := inferInstance

instance instTransOrdLinearPair : TransOrd (α × β) := inferInstance

instance instLawfulEqOrdLinearPair : LawfulEqOrd (α × β) := inferInstance

instance instTransOrdLinearTriple : TransOrd (α × β × γ) := inferInstance

instance instLawfulEqOrdLinearTriple : LawfulEqOrd (α × β × γ) := inferInstance

end Linear

/-- A loop whose rounds add to a number adds their sum. -/
theorem sum_foldl {σ α : Type} (look : σ → Int) {step : σ → α → σ} {value : α → Int}
    (hstep : ∀ s a, look (step s a) = look s + value a) (l : List α) (s : σ) :
    look (l.foldl step s) = look s + (l.map value).sum := by
  induction l generalizing s with
  | nil => simp
  | cons a l ih => rw [foldl_cons, ih, hstep, map_cons, sum_cons, add_assoc]

variable {κ ν σ β : Type} [DecidableEq κ]

/-- In a loop over distinct keys, each key is changed once, from what it was at the start. -/
theorem foldl_pointwise {step : σ → κ × ν → σ} {look : σ → κ → β} (change : κ → ν → β → β)
    (hstep : ∀ s e a, look (step s e) a = if e.1 = a then change a e.2 (look s a) else look s a)
    {l : List (κ × ν)} (hdistinct : (l.map Prod.fst).Nodup) (s : σ) (a : κ) :
    (∀ v, (a, v) ∈ l → look (l.foldl step s) a = change a v (look s a)) ∧
      (a ∉ l.map Prod.fst → look (l.foldl step s) a = look s a) := by
  induction l generalizing s with
  | nil => exact ⟨fun v hv => absurd hv (not_mem_nil), fun _ => rfl⟩
  | cons e l ih =>
    rw [map_cons, nodup_cons] at hdistinct
    obtain ⟨hin, hout⟩ := ih hdistinct.2 (step s e)
    rw [foldl_cons]
    constructor
    · intro v hv
      rcases mem_cons.mp hv with heq | hv
      · subst heq
        rw [hout hdistinct.1, hstep, if_pos rfl]
      · have hne : e.1 ≠ a := by
          rintro rfl
          exact hdistinct.1 (mem_map.mpr ⟨_, hv, rfl⟩)
        rw [hin v hv, hstep, if_neg hne]
    · intro hnot
      rw [map_cons, mem_cons, not_or] at hnot
      rw [hout hnot.2, hstep, if_neg (Ne.symm hnot.1)]

namespace BTreeMap

variable [Ord κ] [TransOrd κ] [LawfulEqOrd κ]

omit [DecidableEq κ] in
theorem mem_keys_toList {m : BTreeMap κ ν} {a : κ} :
    a ∈ m.toList.map Prod.fst ↔ ∃ v, m[a]? = some v := by
  rw [mem_map]
  constructor
  · rintro ⟨⟨k, v⟩, hmem, rfl⟩
    exact ⟨v, mem_toList_iff_getElem?_eq_some.mp hmem⟩
  · rintro ⟨v, hv⟩
    exact ⟨(a, v), mem_toList_iff_getElem?_eq_some.mpr hv, rfl⟩

theorem foldl_pointwise {step : σ → κ × ν → σ} {look : σ → κ → β} (change : κ → ν → β → β)
    (hstep : ∀ s e a, look (step s e) a = if e.1 = a then change a e.2 (look s a) else look s a)
    (m : BTreeMap κ ν) (s : σ) (a : κ) :
    look (m.toList.foldl step s) a = (m[a]?).elim (look s a) fun v => change a v (look s a) := by
  obtain ⟨hin, hout⟩ := FrankenGraph.foldl_pointwise change hstep m.nodup_keys s a
  cases ha : m[a]? with
  | none =>
    refine hout fun hmem => ?_
    obtain ⟨v, hv⟩ := mem_keys_toList.mp hmem
    cases hv.symm.trans ha
  | some v => exact hin v (mem_toList_iff_getElem?_eq_some.mpr ha)

end BTreeMap

theorem sum_eq_single_of_nodup {l : List κ} (hdistinct : l.Nodup) (f : κ → Int) (a : κ)
    (hzero : ∀ b ∈ l, b ≠ a → f b = 0) : (l.map f).sum = if a ∈ l then f a else 0 := by
  rw [List.sum_map_eq_nsmul_single a f fun b hne hb => hzero b hb hne, hdistinct.count]
  split_ifs <;> simp

/-- A sum over distinct keys to which only one key contributes. -/
theorem sum_single_of_nodup {l : List (κ × ν)} (hdistinct : (l.map Prod.fst).Nodup) (a : κ)
    (f : ν → Int) :
    (∀ v, (a, v) ∈ l → (l.map fun e => if e.1 = a then f e.2 else 0).sum = f v) ∧
      (a ∉ l.map Prod.fst → (l.map fun e => if e.1 = a then f e.2 else 0).sum = 0) := by
  classical
  constructor
  · intro v hv
    rw [sum_eq_single_of_nodup hdistinct.of_map _ (a, v) fun e he hne => if_neg fun heq =>
      hne (inj_on_of_nodup_map hdistinct he hv heq), if_pos hv, if_pos rfl]
  · intro hnot
    refine List.sum_eq_zero fun x hx => ?_
    obtain ⟨e, he, rfl⟩ := mem_map.mp hx
    exact if_neg fun heq => hnot (mem_map.mpr ⟨e, he, heq⟩)

namespace BTreeMap

variable [Ord κ] [TransOrd κ] [LawfulEqOrd κ]

theorem sum_single (m : BTreeMap κ ν) (a : κ) (f : ν → Int) :
    (m.toList.map fun e => if e.1 = a then f e.2 else 0).sum = (m[a]?).elim 0 f := by
  obtain ⟨hin, hout⟩ := sum_single_of_nodup m.nodup_keys a f
  cases ha : m[a]? with
  | none =>
    refine hout fun hmem => ?_
    obtain ⟨v, hv⟩ := mem_keys_toList.mp hmem
    cases hv.symm.trans ha
  | some v => exact hin v (mem_toList_iff_getElem?_eq_some.mpr ha)

theorem lookup_build {γ : Type} (m : BTreeMap κ ν) (value : κ → ν → γ) (a : κ) :
    (m.toList.foldl (fun (r : BTreeMap κ γ) e => r.insert e.1 (value e.1 e.2)) ∅)[a]? =
      (m[a]?).map (value a) := by
  have hstep : ∀ (r : BTreeMap κ γ) (e : κ × ν) (k : κ), (r.insert e.1 (value e.1 e.2))[k]? =
      if e.1 = k then some (value k e.2) else r[k]? := by
    intro r e k
    rw [lookup_insert]
    split_ifs with hk
    · rw [hk]
    · rfl
  have hloop := foldl_pointwise (fun k v _ => some (value k v)) hstep m ∅ a
  rw [hloop, getElem?_empty]
  cases m[a]? <;> rfl

end BTreeMap

end FrankenGraph

import FrankenGraph.Library.Partition
import FrankenGraph.Library.KeySets

/-!
# Searches with a stack

A search keeps what it has reached and a stack of items. A round takes an item, goes through the
elements of its cone, and for each one that is new pushes the items that follow from it. As an element
is new once, the number of rounds is known in advance.

Results:
* `saturate_spec`: what a search reaches is sound, and every item that came up is done
-/

namespace FrankenGraph

open Std (ExtTreeMap ExtTreeSet)

variable {V : Type} [LinearOrder V]

/-- Where a search stands. -/
structure Frontier (V : Type) [LinearOrder V] where
  reached : BTreeSet V
  pending : List V

/-- A new element pushes its items. -/
def Frontier.add (push : V → List V) (f : Frontier V) (v : V) : Frontier V :=
  if v ∈ f.reached then f
  else { reached := f.reached.insert v, pending := (push v).reverse ++ f.pending }

/-- Take an item and go through its cone. -/
def Frontier.pop (cone : BTreeSet V → V → List V) (push : V → List V) (f : Frontier V) :
    Option (Frontier V) :=
  match f.pending with
  | [] => none
  | item :: rest =>
    some ((cone f.reached item).foldl (Frontier.add push) { f with pending := rest })

/-- Search until no item is left. Every element of the domain pushes its items once. -/
def saturate (cone : BTreeSet V → V → List V) (push : V → List V) (domain : BTreeSet V)
    (f : Frontier V) : Frontier V :=
  iterate (Frontier.pop cone push)
    (f.pending.length + (domain.toList.map fun v => (push v).length).sum) f

namespace Frontier

variable {cone : BTreeSet V → V → List V} {push : V → List V} {domain : BTreeSet V}

/-- The rounds that are still to come. -/
def weight (push : V → List V) (domain : BTreeSet V) (f : Frontier V) : Nat :=
  f.pending.length + unmarked domain f.reached fun v => (push v).length

theorem weight_add {f : Frontier V} {v : V} (hv : v ∈ domain) :
    (f.add push v).weight push domain = f.weight push domain := by
  unfold add
  split_ifs with hreached
  · rfl
  · unfold weight
    dsimp only
    rw [unmarked_insert hv hreached, List.length_append, List.length_reverse]
    omega

/-- The loop over a cone. -/
theorem foldl_add_spec (push : V → List V) (domain : BTreeSet V) (l : List V) (f : Frontier V) :
    (∀ v, v ∈ (l.foldl (add push) f).reached ↔ v ∈ f.reached ∨ v ∈ l) ∧
    (∀ i ∈ f.pending, i ∈ (l.foldl (add push) f).pending) ∧
    (∀ i ∈ (l.foldl (add push) f).pending, i ∈ f.pending ∨ ∃ v ∈ l, i ∈ push v) ∧
    (∀ v ∈ l, v ∉ f.reached → ∀ i ∈ push v, i ∈ (l.foldl (add push) f).pending) ∧
    ((∀ v ∈ l, v ∈ domain) → (l.foldl (add push) f).weight push domain = f.weight push domain) := by
  induction l generalizing f with
  | nil => simp
  | cons u l ih =>
    obtain ⟨hreached, hkept, hitems, hpushed, hweight⟩ := ih (f.add push u)
    rw [List.foldl_cons]
    have hadd : ∀ v, v ∈ (f.add push u).reached ↔ v ∈ f.reached ∨ v = u := by
      intro v
      unfold add
      split_ifs with hu
      · constructor
        · exact .inl
        · rintro (hv | rfl)
          · exact hv
          · exact hu
      · rw [BTreeSet.mem_insert_iff, or_comm, eq_comm]
    have hpending : ∀ i, i ∈ (f.add push u).pending ↔
        i ∈ f.pending ∨ (u ∉ f.reached ∧ i ∈ push u) := by
      intro i
      unfold add
      split_ifs with hu
      · simp [hu]
      · simp [hu, or_comm]
    refine ⟨fun v => ?_, fun i hi => ?_, fun i hi => ?_, fun v hv hnew i hi => ?_, fun hall => ?_⟩
    · rw [hreached, hadd, List.mem_cons, or_assoc]
    · exact hkept i ((hpending i).mpr (.inl hi))
    · rcases hitems i hi with hi | ⟨v, hv, hi⟩
      · rcases (hpending i).mp hi with hi | ⟨-, hi⟩
        · exact .inl hi
        · exact .inr ⟨u, List.mem_cons_self, hi⟩
      · exact .inr ⟨v, List.mem_cons_of_mem _ hv, hi⟩
    · by_cases hvu : v = u
      · exact hkept i ((hpending i).mpr (.inr ⟨hvu ▸ hnew, hvu ▸ hi⟩))
      · refine hpushed v ((List.mem_cons.mp hv).resolve_left hvu) ?_ i hi
        rw [hadd]
        exact not_or.mpr ⟨hnew, hvu⟩
    · rw [hweight fun v hv => hall v (List.mem_cons_of_mem _ hv), weight_add (hall u List.mem_cons_self)]

/-- What holds between the rounds of a search: the items and the elements are as they should be, and
an item that came up is on the stack or done. -/
structure Inv (push : V → List V) (item element : V → Prop) (done : BTreeSet V → V → Prop)
    (stable : BTreeSet V → Prop) (start f : Frontier V) : Prop where
  items : ∀ i ∈ f.pending, item i
  elements : ∀ v ∈ f.reached, element v
  kept : ∀ v ∈ start.reached, v ∈ f.reached
  started : ∀ i ∈ start.pending, i ∈ f.pending ∨ done f.reached i
  pushed : ∀ v ∈ f.reached, ∀ i ∈ push v, i ∈ f.pending ∨ done f.reached i
  stable : stable f.reached

end Frontier

/-- What a search is about: cones of items give elements, elements push items, and taking an item
gets it done. -/
structure SearchRules (cone : BTreeSet V → V → List V) (push : V → List V) (domain : BTreeSet V)
    (item element : V → Prop) (done : BTreeSet V → V → Prop) (stable : BTreeSet V → Prop) :
    Prop where
  element_of_item : ∀ reached i v, item i → v ∈ cone reached i → element v
  item_of_element : ∀ v i, element v → i ∈ push v → item i
  bounded : ∀ v, element v → v ∈ domain
  done_mono : ∀ (reached reached' : BTreeSet V) i, (∀ v ∈ reached, v ∈ reached') →
    done reached i → done reached' i
  taken : ∀ (reached reached' : BTreeSet V) i, stable reached → item i →
    (∀ v, v ∈ reached' ↔ v ∈ reached ∨ v ∈ cone reached i) → done reached' i ∧ stable reached'

namespace Frontier

variable {cone : BTreeSet V → V → List V} {push : V → List V} {domain : BTreeSet V}
  {item element : V → Prop} {done : BTreeSet V → V → Prop} {stable : BTreeSet V → Prop}
  (rules : SearchRules cone push domain item element done stable)

include rules

theorem Inv.pop {start f f' : Frontier V} (h : Inv push item element done stable start f)
    (hpop : f.pop cone push = some f') :
    Inv push item element done stable start f' ∧ f'.weight push domain < f.weight push domain := by
  obtain ⟨reached, pending⟩ := f
  cases pending with
  | nil => cases hpop
  | cons i rest =>
    have hi : item i := h.items i List.mem_cons_self
    have hcone : ∀ v ∈ cone reached i, element v := fun v => rules.element_of_item reached i v hi
    obtain ⟨hreached, hkept, hitems, hpushed, hweight⟩ :=
      foldl_add_spec push domain (cone reached i) ⟨reached, rest⟩
    unfold Frontier.pop at hpop
    dsimp only at hpop
    generalize (cone reached i).foldl (add push) ⟨reached, rest⟩ = next at *
    cases hpop
    obtain ⟨hdone, hstable⟩ := rules.taken reached f'.reached i h.stable hi hreached
    have hgrown : ∀ v ∈ reached, v ∈ f'.reached := fun v hv => (hreached v).mpr (.inl hv)
    -- an item that was on the stack or done still is
    have hcarry : ∀ j, j ∈ i :: rest ∨ done reached j → j ∈ f'.pending ∨ done f'.reached j := by
      rintro j (hj | hj)
      · rcases List.mem_cons.mp hj with rfl | hj
        · exact .inr hdone
        · exact .inl (hkept j hj)
      · exact .inr (rules.done_mono reached f'.reached j hgrown hj)
    refine ⟨⟨fun j hj => ?_, fun v hv => ?_, fun v hv => hgrown v (h.kept v hv),
      fun j hj => hcarry j (h.started j hj), fun v hv j hj => ?_, hstable⟩, ?_⟩
    · rcases hitems j hj with hj | ⟨v, hv, hj⟩
      · exact h.items j (List.mem_cons_of_mem _ hj)
      · exact rules.item_of_element v j (hcone v hv) hj
    · rcases (hreached v).mp hv with hv | hv
      · exact h.elements v hv
      · exact hcone v hv
    · by_cases hold : v ∈ reached
      · exact hcarry j (h.pushed v hold j hj)
      · exact .inl (hpushed v (((hreached v).mp hv).resolve_left hold) hold j hj)
    · rw [hweight fun v hv => rules.bounded v (hcone v hv)]
      unfold weight
      dsimp only
      rw [List.length_cons]
      omega

end Frontier

/-- A search that starts well reaches only what it should, and gets every item done that it starts
with or that an element it reaches pushes. -/
theorem saturate_spec {cone : BTreeSet V → V → List V} {push : V → List V} {domain : BTreeSet V}
    {item element : V → Prop} {done : BTreeSet V → V → Prop} {stable : BTreeSet V → Prop}
    (rules : SearchRules cone push domain item element done stable) {f : Frontier V}
    (hitems : ∀ i ∈ f.pending, item i) (helements : ∀ v ∈ f.reached, element v)
    (hpushed : ∀ v ∈ f.reached, ∀ i ∈ push v, i ∈ f.pending) (hstable : stable f.reached) :
    (∀ v ∈ (saturate cone push domain f).reached, element v) ∧
    (∀ v ∈ f.reached, v ∈ (saturate cone push domain f).reached) ∧
    (∀ i ∈ f.pending, done (saturate cone push domain f).reached i) ∧
    (∀ v ∈ (saturate cone push domain f).reached, ∀ i ∈ push v,
      done (saturate cone push domain f).reached i) ∧
    stable (saturate cone push domain f).reached := by
  have hinit : Frontier.Inv push item element done stable f f :=
    ⟨hitems, helements, fun v hv => hv, fun i hi => .inl hi,
      fun v hv i hi => .inl (hpushed v hv i hi), hstable⟩
  have hrounds : f.weight push domain ≤
      f.pending.length + (domain.toList.map fun v => (push v).length).sum :=
    Nat.add_le_add_left (unmarked_le _ _ _) _
  obtain ⟨hinv, hend⟩ := iterate_spec (Frontier.weight push domain)
    (fun f f' h hpop => h.pop rules hpop) hinit hrounds
  have hempty : (saturate cone push domain f).pending = [] := by
    change Frontier.pop cone push (saturate cone push domain f) = none at hend
    unfold Frontier.pop at hend
    cases hpending : (saturate cone push domain f).pending with
    | nil => rfl
    | cons i rest =>
      rw [hpending] at hend
      cases hend
  change Frontier.Inv push item element done stable f (saturate cone push domain f) at hinv
  have hnone : ∀ i, i ∉ (saturate cone push domain f).pending := fun i => by
    rw [hempty]
    exact List.not_mem_nil
  exact ⟨hinv.elements, hinv.kept, fun i hi => (hinv.started i hi).resolve_left (hnone i),
    fun v hv i hi => (hinv.pushed v hv i hi).resolve_left (hnone i), hinv.stable⟩

end FrankenGraph

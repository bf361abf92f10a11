import FrankenGraph.Collections.Removals

/-!
# Iteration

The stack machine of `ArtIter` yields every entry below a node once, in the lexicographic order of the
full keys.

Results:
* `iterAll_of_yields`: with enough fuel the iterator yields what the machine does
* `items_of_wf`: what the machine yields from a node
-/

namespace FrankenGraph.Art

open List Option

variable {V : Type}

/-! ## The order of keys -/

theorem compare_append (path a b : Key) : compare (path ++ a) (path ++ b) = compare a b := by
  induction path with
  | nil => rfl
  | cons x path ih =>
    rw [List.cons_append, List.cons_append]
    refine List.compareLex_cons_cons.trans ?_
    rw [compare_self]
    exact ih

theorem compare_edges {x y : UInt8} (h : x < y) (a b : Key) : compare (x :: a) (y :: b) = .lt := by
  refine List.compareLex_cons_cons.trans ?_
  rw [show compare x y = .lt from if_pos h]
  rfl

/-- The items are in the strict order of their keys. -/
def Ascending (items : List (Key × V)) : Prop :=
  items.Pairwise fun a b => compare a.1 b.1 = .lt

/-! ## What the machine yields -/

/-- The stack machine yields these items and ends. -/
inductive Yields : List (IterFrame V) → List (Key × V) → Prop
  | done : Yields [] []
  | item {stack stack' : List (IterFrame V)} {x : Key × V} {items : List (Key × V)}
    (pass : iterPass stack = some (some x, stack')) (rest : Yields stack' items) :
    Yields stack (x :: items)
  | skip {stack stack' : List (IterFrame V)} {items : List (Key × V)}
    (pass : iterPass stack = some (none, stack')) (rest : Yields stack' items) : Yields stack items

theorem iterNext_of_yields {stack : List (IterFrame V)} {items : List (Key × V)}
    (h : Yields stack items) :
    ∃ enough, match items with
      | [] => ∀ fuel ≥ enough, ∃ stack', iterNext fuel stack = some (none, stack')
      | x :: items => ∃ stack', Yields stack' items ∧
        ∀ fuel ≥ enough, iterNext fuel stack = some (some x, stack') := by
  induction h with
  | done =>
    refine ⟨1, fun fuel hfuel => ⟨[], ?_⟩⟩
    obtain ⟨fuel, rfl⟩ := Nat.exists_eq_add_of_le' hfuel
    rfl
  | @item stack stack' x items pass rest _ =>
    refine ⟨1, stack', rest, fun fuel hfuel => ?_⟩
    obtain ⟨fuel, rfl⟩ := Nat.exists_eq_add_of_le' hfuel
    rw [iterNext, pass]
  | @skip stack stack' items pass _ ih =>
    obtain ⟨enough, ih⟩ := ih
    have hnext : ∀ fuel, iterNext (fuel + 1) stack = iterNext fuel stack' := by
      intro fuel
      rw [iterNext, pass]
    refine ⟨enough + 1, ?_⟩
    cases items with
    | nil =>
      intro fuel hfuel
      obtain ⟨fuel, rfl⟩ := Nat.exists_eq_add_of_le' (Nat.le_trans (Nat.le_add_left 1 enough) hfuel)
      rw [hnext]
      exact ih fuel (by omega)
    | cons x items =>
      obtain ⟨stack'', hyields, hfuel⟩ := ih
      refine ⟨stack'', hyields, fun fuel henough => ?_⟩
      obtain ⟨fuel, rfl⟩ := Nat.exists_eq_add_of_le' (Nat.le_trans (Nat.le_add_left 1 enough) henough)
      rw [hnext]
      exact hfuel fuel (by omega)

theorem iterAll_of_yields (items : List (Key × V)) :
    ∀ stack : List (IterFrame V), Yields stack items →
      ∃ enough, ∀ fuel ≥ enough, ∀ calls > items.length, iterAll fuel calls stack = some items := by
  induction items with
  | nil =>
    intro stack h
    obtain ⟨enough, hnext⟩ := iterNext_of_yields h
    refine ⟨enough, fun fuel hfuel calls hcalls => ?_⟩
    obtain ⟨calls, rfl⟩ := Nat.exists_eq_add_of_le' (Nat.succ_le_of_lt hcalls)
    obtain ⟨stack', hstack⟩ := hnext fuel hfuel
    simp [iterAll, hstack]
  | cons x items ih =>
    intro stack h
    obtain ⟨enough, stack', hrest, hnext⟩ := iterNext_of_yields h
    obtain ⟨enough', hall⟩ := ih stack' hrest
    refine ⟨max enough enough', fun fuel hfuel calls hcalls => ?_⟩
    rw [length_cons] at hcalls
    obtain ⟨calls, rfl⟩ := Nat.exists_eq_add_of_le' (Nat.succ_le_of_lt (Nat.zero_lt_of_lt hcalls))
    rw [iterAll, hnext fuel (by omega)]
    simp only [hall fuel (by omega) calls (by omega)]
    rfl

/-- The next pass decides what is yielded. -/
theorem Yields.of_pass_eq {frame frame' : IterFrame V} {stack stack' : List (IterFrame V)}
    {items : List (Key × V)} (h : Yields (frame :: stack) items)
    (heq : iterPass (frame' :: stack') = iterPass (frame :: stack)) :
    Yields (frame' :: stack') items := by
  generalize hs : frame :: stack = s at h
  cases h with
  | done => cases hs
  | item pass rest => exact .item (by rw [heq, hs, pass]) rest
  | skip pass rest => exact .skip (by rw [heq, hs, pass]) rest

namespace Node

variable {pfx : Key} {entry : Option (Entry V)} {children : Children (Node V)}
  {f : UInt8 → Option (Node V)}

section

variable (holds : children.Holds f) {items : UInt8 → Node V → List (Key × V)}
  (hitems : ∀ edge child, f edge = some child → ∀ stack rest, Yields stack rest →
    Yields (IterFrame.start child :: stack) (items edge child ++ rest))

include holds hitems

/-- The children from one ordinal on. -/
theorem yields_children (todo : ℕ) :
    ∀ ordinal, ordinal + todo = (edgesOf f).length → ∀ stack rest, Yields stack rest →
      Yields (⟨.mk pfx entry children, true, ordinal⟩ :: stack)
        (((edgesOf f).drop ordinal).flatMap (fun e => items e.1 e.2) ++ rest) := by
  induction todo with
  | zero =>
    intro ordinal hord stack rest hrest
    rw [drop_of_length_le (by omega), flatMap_nil, nil_append]
    refine .skip ?_ hrest
    have hlen : ¬ ordinal < children.len := by
      rw [holds.len_eq]
      omega
    simp [iterPass, Node.children, hlen]
  | succ todo ih =>
    intro ordinal hord stack rest hrest
    have hlt : ordinal < (edgesOf f).length := by omega
    have hchild : f (edgesOf f)[ordinal].1 = some (edgesOf f)[ordinal].2 :=
      mem_edgesOf.mp (getElem_mem hlt)
    rw [drop_eq_getElem_cons hlt, flatMap_cons, append_assoc]
    refine .skip ?_ (hitems _ _ hchild _ _ (ih (ordinal + 1) (by omega) stack rest hrest))
    have hlen : ordinal < children.len := by
      rw [holds.len_eq]
      exact hlt
    simp [iterPass, Node.children, hlen, holds.edgeAt_eq, getElem?_eq_getElem hlt]

/-- A node yields its entry, then its children in the order of their edges. -/
theorem yields_start (stack : List (IterFrame V)) (rest : List (Key × V))
    (hrest : Yields stack rest) :
    Yields (IterFrame.start (.mk pfx entry children) :: stack)
      (((entry.map fun e => (e.key, e.value)).toList ++
        (edgesOf f).flatMap (fun e => items e.1 e.2)) ++ rest) := by
  have hchildren : Yields (⟨.mk pfx entry children, true, 0⟩ :: stack)
      (((edgesOf f).drop 0).flatMap (fun e => items e.1 e.2) ++ rest) :=
    yields_children holds hitems (edgesOf f).length 0 (by omega) stack rest hrest
  rw [drop_zero] at hchildren
  cases entry with
  | none => exact hchildren.of_pass_eq (by simp [iterPass, IterFrame.start, Node.entry])
  | some e =>
    refine .item ?_ hchildren
    simp [iterPass, IterFrame.start, Node.entry]

end

theorem maps_iff {path : Key} (holds : children.Holds f)
    (key : ∀ e, entry = some e → e.key = path ++ pfx) (fullKey : Key) (value : V) :
    Maps path (.mk pfx entry children) fullKey value ↔
      (fullKey, value) ∈ (entry.map fun e => (e.key, e.value)).toList ∨
        ∃ edge child, f edge = some child ∧ Maps (path ++ pfx ++ [edge]) child fullKey value := by
  constructor
  · rintro ⟨rest, rfl, hget⟩
    rw [get_eq, bind_eq_some_iff] at hget
    obtain ⟨r, hstrip, hafter⟩ := hget
    have hrest := strip_eq_some.mp hstrip
    rw [Node.pfx] at hrest
    subst hrest
    cases r with
    | nil =>
      left
      obtain ⟨e, he, rfl⟩ := map_eq_some_iff.mp hafter
      rw [Node.entry] at he
      simp [he, key e he]
    | cons edge r =>
      right
      rw [after_mk _ _ holds, bind_eq_some_iff] at hafter
      obtain ⟨child, hf, hget⟩ := hafter
      exact ⟨edge, child, hf, r, by simp, hget⟩
  · rintro (hmem | ⟨edge, child, hf, r, rfl, hget⟩)
    · rw [mem_toList, map_eq_some_iff] at hmem
      obtain ⟨e, he, heq⟩ := hmem
      cases heq
      refine ⟨pfx, key e he, ?_⟩
      have := get_append (.mk pfx entry children) []
      rw [Node.pfx, append_nil] at this
      rw [this, after, Node.entry, he]
      rfl
    · refine ⟨pfx ++ edge :: r, by simp, ?_⟩
      have := get_append (.mk pfx entry children) (edge :: r)
      rw [Node.pfx] at this
      rw [this, after_mk _ _ holds, hf]
      exact hget

/-- What the machine yields from a node: its entries in the order of their keys. -/
theorem items_of_wf {path : Key} {node : Node V} (h : Wf path node) :
    ∃ items, (∀ stack rest, Yields stack rest →
        Yields (IterFrame.start node :: stack) (items ++ rest)) ∧
      Ascending items ∧ ∀ fullKey value, (fullKey, value) ∈ items ↔ Maps path node fullKey value := by
  induction h with
  | @mk path pfx entry children f holds key below ih =>
    have hchoice : ∀ edge child, ∃ items, f edge = some child → (∀ stack rest, Yields stack rest →
          Yields (IterFrame.start child :: stack) (items ++ rest)) ∧
        Ascending items ∧ ∀ fullKey value, (fullKey, value) ∈ items ↔
          Maps (path ++ pfx ++ [edge]) child fullKey value := by
      intro edge child
      by_cases hf : f edge = some child
      · obtain ⟨items, hitems⟩ := ih edge child hf
        exact ⟨items, fun _ => hitems⟩
      · exact ⟨[], fun h => absurd h hf⟩
    choose items hitems using hchoice
    have hedge : ∀ e ∈ edgesOf f, f e.1 = some e.2 := fun e he => mem_edgesOf.mp he
    have hkeys : ∀ e ∈ edgesOf f, ∀ x ∈ items e.1 e.2, ∃ r, x.1 = path ++ pfx ++ e.1 :: r := by
      intro e he x hx
      obtain ⟨r, hr, -⟩ := ((hitems e.1 e.2 (hedge e he)).2.2 x.1 x.2).mp hx
      exact ⟨r, by rw [hr]; simp⟩
    refine ⟨_, yields_start holds fun edge child hf => (hitems edge child hf).1, ?_, ?_⟩
    · refine pairwise_append.mpr ⟨?_, pairwise_flatMap.mpr ⟨?_, ?_⟩, ?_⟩
      · cases entry <;> simp
      · exact fun e he => (hitems e.1 e.2 (hedge e he)).2.1
      · refine (pairwise_edgesOf f).imp_of_mem ?_
        intro a b ha hb hlt x hx y hy
        obtain ⟨r, hr⟩ := hkeys a ha x hx
        obtain ⟨r', hr'⟩ := hkeys b hb y hy
        rw [hr, hr', compare_append]
        exact compare_edges hlt r r'
      · intro x hx y hy
        rw [mem_toList, map_eq_some_iff] at hx
        obtain ⟨e, he, rfl⟩ := hx
        obtain ⟨edge, hedge', hy⟩ := mem_flatMap.mp hy
        obtain ⟨r, hr⟩ := hkeys edge hedge' y hy
        have hnil := compare_append (path ++ pfx) [] (edge.1 :: r)
        rw [append_nil] at hnil
        rw [key e he, hr, hnil]
        rfl
    · intro fullKey value
      rw [maps_iff holds key, mem_append, mem_flatMap]
      refine or_congr Iff.rfl ⟨?_, ?_⟩
      · rintro ⟨e, he, hmem⟩
        exact ⟨e.1, e.2, hedge e he, ((hitems e.1 e.2 (hedge e he)).2.2 fullKey value).mp hmem⟩
      · rintro ⟨edge, child, hf, hmaps⟩
        exact ⟨(edge, child), mem_edgesOf.mpr hf,
          ((hitems edge child hf).2.2 fullKey value).mpr hmaps⟩

end Node

end FrankenGraph.Art

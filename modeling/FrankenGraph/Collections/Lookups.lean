import FrankenGraph.Collections.Tree
import FrankenGraph.Collections.EdgeMoves

/-!
# What the nodes stand for

A node stands for a partial map from what is left of a key to values, and that map is `Node.get`. `Wf`
says that the children below a node are laid out well and that every entry keeps its full key. An
insertion keeps `Wf` and changes the map as it should, whatever is refused.

Results:
* `get_eq`, `get_split`: lookups by what is left of the key
* `tryInsert_outcome`: an insertion, or the old map
-/

namespace FrankenGraph.Art

open List Option Function

variable {V : Type}

/-! ## Stripping a prefix -/

/-- What is left of a key after a prefix. -/
def strip (pfx key : Key) : Option Key :=
  if pfx.isPrefixOf key then some (key.drop pfx.length) else none

theorem strip_eq_some {pfx key rest : Key} : strip pfx key = some rest ↔ key = pfx ++ rest := by
  unfold strip
  constructor
  · intro h
    split at h
    · next hprefix =>
      rw [some.injEq] at h
      obtain ⟨tail, rfl⟩ := isPrefixOf_iff_prefix.mp hprefix
      rw [← h, drop_left]
    · cases h
  · rintro rfl
    rw [if_pos (List.isPrefixOf_iff_prefix.mpr (prefix_append _ _)), drop_left]

@[simp] theorem strip_append_self (pfx rest : Key) : strip pfx (pfx ++ rest) = some rest :=
  strip_eq_some.mpr rfl

theorem strip_append (p q key : Key) : strip (p ++ q) key = (strip p key).bind (strip q) := by
  ext rest
  rw [strip_eq_some, bind_eq_some_iff]
  constructor
  · rintro rfl
    exact ⟨q ++ rest, by rw [append_assoc, strip_append_self], strip_append_self _ _⟩
  · rintro ⟨middle, hp, hq⟩
    rw [strip_eq_some.mp hp, strip_eq_some.mp hq, append_assoc]

theorem strip_cons (edge : UInt8) (q : Key) (e : UInt8) (r : Key) :
    strip (edge :: q) (e :: r) = if e = edge then strip q r else none := by
  ext rest
  rw [strip_eq_some]
  by_cases h : e = edge
  · rw [if_pos h, strip_eq_some, h]
    simp
  · rw [if_neg h]
    simp [h]

/-- Two keys: what they share and where they part. -/
theorem commonPrefixLen_spec (left right : Key) :
    ∃ shared left' right', left = shared ++ left' ∧ right = shared ++ right' ∧
      commonPrefixLen left right = shared.length ∧
      ∀ e l r, left' = e :: l → right' ≠ e :: r := by
  induction left generalizing right with
  | nil => exact ⟨[], [], right, rfl, rfl, by simp [commonPrefixLen], by simp⟩
  | cons a left ih =>
    cases right with
    | nil => exact ⟨[], a :: left, [], rfl, rfl, by simp [commonPrefixLen], by simp⟩
    | cons b right =>
      by_cases hab : a = b
      · subst hab
        obtain ⟨shared, left', right', rfl, rfl, hlen, hpart⟩ := ih right
        exact ⟨a :: shared, left', right', rfl, rfl, by simp [commonPrefixLen, hlen], hpart⟩
      · exact ⟨[], a :: left, b :: right, rfl, rfl, by simp [commonPrefixLen, hab],
          fun e l r hl hr => hab ((cons.inj hl).1.trans (cons.inj hr).1.symm)⟩

/-! ## Nodes -/

namespace Node

/-- The map of a node after its prefix. -/
def after (node : Node V) : Key → Option V
  | [] => node.entry.map Entry.value
  | edge :: rest => (node.children.get edge).bind fun child => child.get rest

theorem get_eq (node : Node V) (key : Key) : node.get key = (strip node.pfx key).bind node.after := by
  rw [get, strip]
  split
  · rw [bind_some]
    cases h : key.drop node.pfx.length with
    | nil => rfl
    | cons edge rest =>
      simp only [after]
      cases node.children.get edge <;> rfl
  · rfl

theorem get_append (node : Node V) (rest : Key) : node.get (node.pfx ++ rest) = node.after rest := by
  rw [get_eq, strip_append_self, bind_some]

variable {pfx rest : Key} {entry entry' : Option (Entry V)} {children children' : Children (Node V)}

/-- Nodes with one prefix differ at a key as they differ after the prefix. -/
theorem get_update {x : Option V} (h : ∀ r, (Node.mk pfx entry' children').after r =
      if r = rest then x else (Node.mk pfx entry children).after r) (key : Key) :
    (Node.mk pfx entry' children').get key =
      if key = pfx ++ rest then x else (Node.mk pfx entry children).get key := by
  rw [get_eq, get_eq]
  simp only [Node.pfx]
  cases hstrip : strip pfx key with
  | none =>
    have hne : key ≠ pfx ++ rest := by
      rintro rfl
      rw [strip_append_self] at hstrip
      cases hstrip
    rw [if_neg hne]
    rfl
  | some r =>
    have hkey := strip_eq_some.mp hstrip
    rw [bind_some, bind_some, h r, hkey]
    simp only [append_cancel_left_eq]

theorem get_same
    (h : ∀ r, (Node.mk pfx entry' children').after r = (Node.mk pfx entry children).after r)
    (key : Key) : (Node.mk pfx entry' children').get key = (Node.mk pfx entry children).get key := by
  rw [get_eq, get_eq]
  simp only [Node.pfx]
  cases strip pfx key with
  | none => rfl
  | some r => exact h r

/-- The nodes below `path` are laid out well, and every entry keeps its full key. -/
inductive Wf : Key → Node V → Prop
  | mk {path pfx : Key} {entry : Option (Entry V)} {children : Children (Node V)}
    (f : UInt8 → Option (Node V)) (holds : children.Holds f)
    (key : ∀ e, entry = some e → e.key = path ++ pfx)
    (below : ∀ edge child, f edge = some child → Wf (path ++ pfx ++ [edge]) child) :
    Wf path (.mk pfx entry children)

variable {path : Key}

/-- The same entry and children under another prefix of the same length in all. -/
theorem Wf.rebase {path' pfx' : Key} (h : Wf path (.mk pfx entry children))
    (heq : path' ++ pfx' = path ++ pfx) : Wf path' (.mk pfx' entry children) := by
  cases h with
  | mk f holds key below =>
    refine .mk f holds ?_ ?_
    · rw [heq]
      exact key
    · rw [heq]
      exact below

variable {f : UInt8 → Option (Node V)}

theorem after_mk (pfx : Key) (entry : Option (Entry V)) (h : children.Holds f) (edge : UInt8)
    (rest : Key) :
    (Node.mk pfx entry children).after (edge :: rest) = (f edge).bind fun child => child.get rest := by
  simp only [after, Node.children, h.get_eq]

variable {edge : UInt8}

/-- One child replaced by another: the maps after the prefix differ as the children's do. -/
theorem after_put (h : children.Holds f) {child' : Option (Node V)}
    (h' : children'.Holds (update f edge child')) {x : Option V}
    (hchild : ∀ r, (child'.bind fun child => child.get r) =
      if r = rest then x else (f edge).bind fun child => child.get r) (r : Key) :
    (Node.mk pfx entry children').after r =
      if r = edge :: rest then x else (Node.mk pfx entry children).after r := by
  cases r with
  | nil => simp [after, Node.entry]
  | cons e r =>
    rw [after_mk _ _ h, after_mk _ _ h']
    by_cases he : e = edge
    · subst he
      rw [update_self, hchild r]
      simp
    · rw [update_of_ne he, if_neg (by simp [he])]

/-- A new child keeps the layout. -/
theorem Wf.update (key : ∀ e, entry = some e → e.key = path ++ pfx)
    (below : ∀ edge child, f edge = some child → Wf (path ++ pfx ++ [edge]) child)
    {child' : Option (Node V)} (h' : children'.Holds (update f edge child'))
    (hchild : ∀ child, child' = some child → Wf (path ++ pfx ++ [edge]) child) :
    Wf path (.mk pfx entry children') := by
  refine .mk _ h' key fun e child he => ?_
  by_cases heq : e = edge
  · subst heq
    rw [update_self] at he
    exact hchild child he
  · rw [update_of_ne heq] at he
    exact below e child he

/-! ## Fresh nodes -/

/-- A layout is determined by its edges. -/
theorem eq_edgesOf {N : Type} {f : UInt8 → Option N} {edges : List (UInt8 × N)}
    (hsorted : edges.Pairwise fun a b => a.1 < b.1)
    (hmem : ∀ edge node, (edge, node) ∈ edges ↔ f edge = some node) : edges = edgesOf f := by
  have hnodup : ∀ l : List (UInt8 × N), (l.Pairwise fun a b => a.1 < b.1) → l.Nodup := by
    intro l hl
    refine hl.imp ?_
    rintro a b hlt rfl
    exact UInt8.lt_irrefl _ hlt
  have hperm : edges.Perm (edgesOf f) := by
    refine (perm_ext_iff_of_nodup (hnodup _ hsorted) (hnodup _ (pairwise_edgesOf f))).mpr ?_
    rintro ⟨edge, node⟩
    rw [hmem, mem_edgesOf]
  refine hperm.eq_of_pairwise ?_ hsorted (pairwise_edgesOf f)
  intro a b _ _ hab hba
  have h₁ := UInt8.lt_iff_toNat_lt.mp hab
  have h₂ := UInt8.lt_iff_toNat_lt.mp hba
  omega

theorem empty_holds : (Children.empty : Children (Node V)).Holds fun _ => none := by
  have hnil : ([] : List (UInt8 × Node V)) = edgesOf fun _ => none :=
    eq_edgesOf List.Pairwise.nil (by simp)
  simp [Children.empty, Children.Holds, ← hnil]

/-- A Node4 with the given edges in order. -/
theorem node4_holds {edges : List (UInt8 × Node V)} (hsorted : edges.Pairwise fun a b => a.1 < b.1)
    (hmem : ∀ edge node, (edge, node) ∈ edges ↔ f edge = some node) (hlen : edges.length ≤ 4) :
    (Children.node4 (edges.map Prod.fst) (edges.map fun e => some e.2)).Holds f := by
  have heq := eq_edgesOf hsorted hmem
  exact ⟨by rw [heq], by rw [heq], by rw [← heq]; exact hlen⟩

theorem one_holds (edge : UInt8) (node : Node V) :
    (Children.node4 [edge] [some node]).Holds (update (fun _ => none) edge (some node)) := by
  refine node4_holds (pairwise_singleton _ (edge, node)) (fun e n => ?_) (by simp)
  by_cases he : e = edge
  · subst he
    simp [eq_comm]
  · simp [he]

theorem two_holds {a b : UInt8} (hab : a < b) (first second : Node V) (ha : f a = some first)
    (hb : f b = some second) (hother : ∀ e, e ≠ a → e ≠ b → f e = none) :
    (Children.node4 [a, b] [some first, some second]).Holds f := by
  have hsorted : [(a, first), (b, second)].Pairwise fun x y => x.1 < y.1 := by simpa using hab
  refine node4_holds hsorted (fun e n => ?_) (by simp)
  simp only [mem_cons, Prod.mk.injEq, not_mem_nil, or_false]
  constructor
  · rintro (⟨rfl, rfl⟩ | ⟨rfl, rfl⟩)
    · exact ha
    · exact hb
  · intro hf
    by_cases hea : e = a
    · rw [hea, ha, some.injEq] at hf
      exact Or.inl ⟨hea, hf.symm⟩
    · by_cases heb : e = b
      · rw [heb, hb, some.injEq] at hf
        exact Or.inr ⟨heb, hf.symm⟩
      · rw [hother e hea heb] at hf
        cases hf

/-- The node of one new key below `path`. -/
def leaf (pfx fullKey : Key) (value : V) : Node V := .mk pfx (some ⟨fullKey, value⟩) .empty

theorem leaf_wf {fullKey : Key} (h : fullKey = path ++ pfx) (value : V) :
    Wf path (leaf pfx fullKey value) := by
  refine .mk _ empty_holds ?_ fun _ _ h => nomatch h
  rintro e he
  cases he
  exact h

theorem leaf_get (pfx fullKey : Key) (value : V) (key : Key) :
    (leaf pfx fullKey value).get key = if key = pfx then some value else none := by
  rw [get_eq]
  have hafter : ∀ r, (leaf pfx fullKey value).after r = if r = [] then some value else none := by
    intro r
    cases r with
    | nil => rfl
    | cons e r =>
      rw [leaf, after_mk _ _ empty_holds]
      rfl
  change (strip pfx key).bind _ = _
  cases hstrip : strip pfx key with
  | none =>
    have hne : key ≠ pfx := by
      rintro rfl
      have := strip_append_self key []
      rw [append_nil, hstrip] at this
      cases this
    rw [if_neg hne]
    rfl
  | some r =>
    have hkey := strip_eq_some.mp hstrip
    rw [bind_some, hafter, hkey]
    simp

variable {ε : Type} {E : ε → Prop}

theorem tryCopyBytes_outcome {error : ε} (h : E error) (bytes : Key) :
    Outcome (tryCopyBytes error bytes) (fun copied => copied = bytes) E := by
  induction bytes with
  | nil => exact .bind (.request h) fun _ _ => Outcome.pure rfl
  | cons byte bytes ih =>
    refine .bind ih ?_
    rintro _ rfl
    exact .bind (.request h) fun _ _ => Outcome.pure rfl

theorem tryEntry_outcome {error : ArtError → ε} (h : ∀ operation, E (error (.region operation)))
    (key : Key) (value : V) :
    Outcome (tryEntry error key value) (fun entry => entry = ⟨key, value⟩) E := by
  refine .bind (tryCopyBytes_outcome (h _) key) ?_
  rintro _ rfl
  exact .pure rfl

theorem tryLeaf_outcome {error : ArtError → ε} (h : ∀ operation, E (error (.region operation)))
    (pfx fullKey : Key) (value : V) :
    Outcome (tryLeaf error pfx fullKey value) (fun node => node = leaf pfx fullKey value) E := by
  refine .bind (tryCopyBytes_outcome (h _) pfx) ?_
  rintro _ rfl
  refine .bind (tryEntry_outcome h fullKey value) ?_
  rintro _ rfl
  refine .bind (Children.tryEmpty_outcome h) ?_
  rintro _ rfl
  exact .pure rfl

/-! ## Splits and merges -/

/-- A node under a longer prefix is a child under its last part. -/
theorem get_split (shared : Key) (edge : UInt8) (suffix : Key) (entry : Option (Entry V))
    (children : Children (Node V)) (key : Key) :
    (Node.mk (shared ++ edge :: suffix) entry children).get key = (strip shared key).bind fun
        | [] => none
        | e :: r => if e = edge then (Node.mk suffix entry children).get r else none := by
  rw [get_eq]
  change (strip (shared ++ edge :: suffix) key).bind _ = _
  rw [strip_append]
  cases strip shared key with
  | none => rfl
  | some rest =>
    cases rest with
    | nil => rfl
    | cons e r =>
      simp only [bind_some, strip_cons]
      by_cases he : e = edge
      · rw [if_pos he, if_pos he, get_eq]
        rfl
      · rw [if_neg he, if_neg he]
        rfl

/-- What an operation on a node promises: the map changed to `x` at one key. -/
def Becomes (path : Key) (node : Node V) (key : Key) (x : Option V) (node' : Node V) : Prop :=
  Wf path node' ∧ ∀ k, node'.get k = if k = key then x else node.get k

/-- The map is the same. -/
def Stays (path : Key) (node node' : Node V) : Prop :=
  Wf path node' ∧ ∀ k, node'.get k = node.get k

/-- A refused request: the map is the same. -/
def Refused (path : Key) (node : Node V) (failure : ArtError × Node V) : Prop :=
  (∃ operation, failure.1 = .region operation) ∧ Stays path node failure.2

theorem Refused.self {node : Node V} (h : Wf path node) (operation : String) :
    Refused path node (.region operation, node) :=
  ⟨⟨operation, rfl⟩, h, fun _ => rfl⟩

variable {shared suffix : Key} {oldEdge : UInt8}

section

variable (h : Wf path (.mk (shared ++ oldEdge :: suffix) entry children))
include h

/-- The parent a split makes, from the map of its children. -/
theorem split_becomes {value : V}
    (hf : children'.Holds f) (hentry : ∀ e, entry' = some e → e.key = path ++ shared)
    (hold : f oldEdge = some (.mk suffix entry children))
    (hnew : ∀ edge child, edge ≠ oldEdge → f edge = some child → Wf (path ++ shared ++ [edge]) child)
    (hnil : entry'.map Entry.value = if rest = [] then some value else none)
    (hcons : ∀ e r, e ≠ oldEdge → ((f e).bind fun child => child.get r) =
      if e :: r = rest then some value else none) (hapart : ∀ r, oldEdge :: r ≠ rest) :
    Becomes path (.mk (shared ++ oldEdge :: suffix) entry children) (shared ++ rest) (some value)
      (.mk shared entry' children') := by
  constructor
  · refine .mk f hf hentry fun edge child hchild => ?_
    by_cases he : edge = oldEdge
    · subst he
      rw [hold, some.injEq] at hchild
      subst hchild
      exact h.rebase (by simp)
    · exact hnew edge child he hchild
  · intro k
    rw [get_split, get_eq]
    change (strip shared k).bind _ = _
    cases hstrip : strip shared k with
    | none =>
      have hne : k ≠ shared ++ rest := by
        rintro rfl
        rw [strip_append_self] at hstrip
        cases hstrip
      rw [if_neg hne]
      rfl
    | some r =>
      rw [strip_eq_some.mp hstrip]
      simp only [bind_some, append_cancel_left_eq]
      cases r with
      | nil =>
        rw [after, Node.entry, hnil]
        by_cases hrest : rest = []
        · rw [if_pos hrest, if_pos hrest.symm]
        · rw [if_neg hrest, if_neg (Ne.symm hrest)]
      | cons e r =>
        rw [after_mk _ _ hf]
        by_cases he : e = oldEdge
        · subst he
          rw [hold, if_neg (hapart r)]
          simp
        · rw [hcons e r he]
          simp only [if_neg he]

/-- The parent of the old node and a new leaf. -/
theorem split_two {newEdge : UInt8} {fullKey : Key}
    (hfull : fullKey = path ++ (shared ++ newEdge :: rest)) (hne : newEdge ≠ oldEdge) (value : V)
    (children' : Children (Node V)) (hholds : children'.Holds (update
      (update (fun _ => none) oldEdge (some (Node.mk suffix entry children))) newEdge
      (some (leaf rest fullKey value)))) :
    Becomes path (.mk (shared ++ oldEdge :: suffix) entry children) (shared ++ newEdge :: rest)
      (some value) (.mk shared none children') := by
  refine split_becomes h hholds (fun _ h => nomatch h) (by simp [hne.symm]) ?_ (by simp) ?_ ?_
  · intro edge child he hchild
    by_cases heq : edge = newEdge
    · subst heq
      rw [update_self, some.injEq] at hchild
      subst hchild
      exact leaf_wf (by simpa using hfull) value
    · simp [heq, he] at hchild
  · intro e r he
    by_cases heq : e = newEdge
    · subst heq
      rw [update_self, bind_some, leaf_get]
      simp
    · simp [heq, he]
  · intro r heq
    exact hne (cons.inj heq).1.symm

theorem trySplitAndInsert_outcome
    (hapart : ∀ r, oldEdge :: r ≠ rest) (fullKey : Key) (hfull : fullKey = path ++ (shared ++ rest))
    (value : V) :
    Outcome ((Node.mk (shared ++ oldEdge :: suffix) entry children).trySplitAndInsert shared.length
        (shared ++ rest) fullKey value)
      (fun result => result.1 = none ∧
        Becomes path (.mk (shared ++ oldEdge :: suffix) entry children) (shared ++ rest) (some value)
          result.2)
      (Refused path (.mk (shared ++ oldEdge :: suffix) entry children)) := by
  have hrefused := Refused.self h
  unfold trySplitAndInsert
  simp only [Node.pfx, Node.entry, Node.children, drop_left, take_left]
  refine .bind (tryCopyBytes_outcome (hrefused _) shared) ?_
  rintro _ rfl
  refine .bind (tryCopyBytes_outcome (hrefused _) suffix) ?_
  rintro _ rfl
  cases rest with
  | nil =>
    refine .bind (tryEntry_outcome hrefused fullKey value) ?_
    rintro _ rfl
    refine .bind (.request (hrefused _)) fun _ _ => ?_
    refine .bind (.request (hrefused _)) fun _ _ => ?_
    refine .bind (Children.tryFilled_outcome (hrefused _) 1 none) fun _ _ => ?_
    refine .bind (.request (hrefused _)) fun _ _ => ?_
    refine .pure ⟨rfl, ?_⟩
    refine split_becomes h (one_holds oldEdge _) ?_ (update_self _ _ _) ?_ (by simp) ?_ hapart
    · rintro e he
      cases he
      simpa using hfull
    · intro edge child he hchild
      rw [update_of_ne he] at hchild
      cases hchild
    · intro e r he
      rw [update_of_ne he]
      simp
  | cons newEdge rest =>
    have hne : newEdge ≠ oldEdge := by
      rintro rfl
      exact hapart rest rfl
    refine .bind (tryLeaf_outcome hrefused rest fullKey value) ?_
    rintro _ rfl
    refine .bind (.request (hrefused _)) fun _ _ => ?_
    refine .bind (.request (hrefused _)) fun _ _ => ?_
    refine .bind (Children.tryFilled_outcome (hrefused _) 2 none) fun _ _ => ?_
    refine .bind (.request (hrefused _)) fun _ _ => ?_
    refine .bind (.request (hrefused _)) fun _ _ => ?_
    -- Both orders of the two edges stand for the same map.
    have hsplit := split_two h hfull hne value
    split
    · next hlt => exact .pure ⟨rfl, hsplit _ (two_holds hlt _ _ (by simp) (by simp [hne.symm])
        (fun e h₁ h₂ => by simp [h₁, h₂]))⟩
    · next hnot =>
      have hlt : oldEdge < newEdge := by
        have hne' := Indexed.toNat_ne hne
        have := mt UInt8.lt_iff_toNat_lt.mpr hnot
        exact UInt8.lt_iff_toNat_lt.mpr (by omega)
      exact .pure ⟨rfl, hsplit _ (two_holds hlt _ _ (by simp [hne.symm]) (by simp)
        (fun e h₁ h₂ => by simp [h₁, h₂]))⟩

end

/-! ## Insertion -/

section Child

variable {path pfx : Key} {entry : Option (Entry V)} {children : Children (Node V)}
  {f : UInt8 → Option (Node V)} (hholds : children.Holds f)
  (key : ∀ e, entry = some e → e.key = path ++ pfx)
  (below : ∀ edge node, f edge = some node → Wf (path ++ pfx ++ [edge]) node) {edge : UInt8}
  {node node' : Node V} (hchild : f edge = some node)

include hholds key below hchild

/-- A write at a child, carried to the node. -/
theorem Becomes.child {rest : Key} {x : Option V}
    (h : Becomes (path ++ pfx ++ [edge]) node rest x node') :
    Becomes path (.mk pfx entry children) (pfx ++ edge :: rest) x
      (.mk pfx entry (children.put edge node')) := by
  have hput : (children.put edge node').Holds (update f edge (some node')) :=
    hholds.put (by simp [hchild]) node'
  constructor
  · refine Wf.update key below hput ?_
    rintro _ hsome
    cases hsome
    exact h.1
  · have hafter : ∀ r, (Node.mk pfx entry (children.put edge node')).after r =
        if r = edge :: rest then x else (Node.mk pfx entry children).after r := by
      refine after_put hholds hput fun r => ?_
      rw [hchild]
      exact h.2 r
    exact fun k => get_update hafter k

theorem Stays.child (h : Stays (path ++ pfx ++ [edge]) node node') :
    Stays path (.mk pfx entry children) (.mk pfx entry (children.put edge node')) := by
  have hbecomes : Becomes (path ++ pfx ++ [edge]) node [] (node.get []) node' := by
    refine ⟨h.1, fun k => ?_⟩
    rw [h.2 k]
    split
    · next hk => rw [hk]
    · rfl
  obtain ⟨hwf, hget⟩ := Becomes.child hholds key below hchild hbecomes
  refine ⟨hwf, fun k => ?_⟩
  rw [hget k]
  split
  · next hk =>
    have hat := get_append (.mk pfx entry children) [edge]
    rw [after_mk _ _ hholds, hchild] at hat
    rw [hk]
    exact hat.symm
  · rfl

end Child

theorem get_parted (hapart : ∀ r, edge :: r ≠ rest) (entry : Option (Entry V))
    (children : Children (Node V)) :
    (Node.mk (shared ++ edge :: suffix) entry children).get (shared ++ rest) = none := by
  rw [get_split, strip_append_self, bind_some]
  cases rest with
  | nil => rfl
  | cons e r =>
    have hne : e ≠ edge := by
      rintro rfl
      exact hapart r rfl
    exact if_neg hne

/-- A new entry where the key ends. -/
theorem becomes_entry (h : Wf path (.mk pfx entry children)) (entry' : Option (Entry V))
    (hkey : ∀ e, entry' = some e → e.key = path ++ pfx) :
    Becomes path (.mk pfx entry children) pfx (entry'.map Entry.value) (.mk pfx entry' children) := by
  cases h with
  | mk f holds key below =>
    refine ⟨.mk f holds hkey below, fun k => ?_⟩
    have hafter : ∀ r, (Node.mk pfx entry' children).after r =
        if r = [] then entry'.map Entry.value else (Node.mk pfx entry children).after r := by
      intro r
      cases r <;> rfl
    have := get_update hafter k
    rwa [append_nil] at this

theorem tryInsert_outcome {path remaining fullKey : Key} {node : Node V} (h : Wf path node)
    (value : V) (hfull : fullKey = path ++ remaining) :
    Outcome (node.tryInsert remaining fullKey value)
      (fun result => result.1 = node.get remaining ∧
        Becomes path node remaining (some value) result.2)
      (Refused path node) := by
  induction h generalizing remaining with
  | @mk path pfx entry children f holds key below ih =>
    have h : Wf path (.mk pfx entry children) := .mk f holds key below
    obtain ⟨shared, left, right, rfl, rfl, hlen, hpart⟩ := commonPrefixLen_spec pfx remaining
    have hrefused := Refused.self h
    rw [tryInsert]
    simp only [Node.pfx, Node.entry, Node.children, hlen]
    cases left with
    | cons oldEdge suffix =>
      have hapart : ∀ r, oldEdge :: r ≠ right := fun r heq => hpart _ _ r rfl heq.symm
      rw [if_pos (by simp), get_parted hapart]
      exact trySplitAndInsert_outcome h hapart fullKey hfull value
    | nil =>
      rw [if_neg (by simp)]
      have hget := get_append (.mk (shared ++ []) entry children) right
      rw [Node.pfx, append_nil] at hget
      simp only [append_nil] at h hget hrefused ⊢
      split
      · next hrest =>
        rw [hlen, drop_left] at hrest
        subst hrest
        rw [append_nil] at hget hfull ⊢
        rw [hget]
        cases entry with
        | some old =>
          have hold : old.key = path ++ shared := by simpa using key old rfl
          refine .pure ⟨rfl, becomes_entry h (some { old with value }) ?_⟩
          rintro e he
          cases he
          exact hold
        | none =>
          refine .bind (tryEntry_outcome hrefused fullKey value) ?_
          rintro _ rfl
          refine .pure ⟨rfl, becomes_entry h (some ⟨fullKey, value⟩) ?_⟩
          rintro e he
          cases he
          exact hfull
      · next edge rest hrest =>
        rw [hlen, drop_left] at hrest
        subst hrest
        rw [hget]
        rw [append_nil] at key below ih
        rw [after_mk _ _ holds, holds.get_eq]
        cases hf : f edge with
        | some child =>
          have hchild := @ih edge child hf rest (by simpa using hfull)
          refine Outcome.translate (hchild.weaken ?_ ?_)
          · rintro result ⟨hold, hbecomes⟩
            exact ⟨hold, hbecomes.child holds key below hf⟩
          · rintro failure ⟨hregion, hstays⟩
            exact ⟨hregion, hstays.child holds key below hf⟩
        | none =>
          refine .bind (tryLeaf_outcome hrefused rest fullKey value) ?_
          rintro _ rfl
          refine Outcome.translate ((holds.tryInsert hf (leaf rest fullKey value)).weaken ?_ ?_)
          · intro children' hholds
            refine ⟨rfl, Wf.update key below hholds ?_, fun k => ?_⟩
            · rintro _ hsome
              cases hsome
              exact leaf_wf (by simpa using hfull) value
            · have hafter : ∀ r, (Node.mk shared entry children').after r =
                  if r = edge :: rest then some value
                  else (Node.mk shared entry children).after r := by
                refine after_put holds hholds fun r => ?_
                rw [hf, bind_some, leaf_get]
                rfl
              exact get_update hafter k
          · rintro failure ⟨hregion, hholds⟩
            refine ⟨hregion, .mk f hholds key below, fun k => get_same (fun r => ?_) k⟩
            cases r with
            | nil => rfl
            | cons e r => rw [after_mk _ _ hholds, after_mk _ _ holds]

end Node

end FrankenGraph.Art

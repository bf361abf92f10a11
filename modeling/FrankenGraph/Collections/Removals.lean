import FrankenGraph.Collections.Lookups

/-!
# Removal, writes and prefixes

Removal takes an entry out, merges a node with its only child where that is granted, and prunes the
empty nodes it leaves on the path. None of the last two changes the map.

Results:
* `remove_outcome`: the map without a key, whatever is refused
* `modify_spec`: a write through `get_mut`
* `findPrefixNode_spec`: the keys under a prefix
-/

namespace FrankenGraph.Art

open List Option

variable {V : Type}

/-! ## The only child -/

theorem Children.Holds.onlyChildRef {N : Type} {c : Children N} {f : UInt8 → Option N} (h : c.Holds f)
    {edge : UInt8} {node : N} (hone : c.onlyChildRef = some (edge, node)) :
    edgesOf f = [(edge, node)] := by
  unfold Children.onlyChildRef at hone
  rw [h.len_eq] at hone
  split at hone
  · next hlen =>
    rw [h.edgeAt_eq] at hone
    obtain ⟨e, he⟩ := length_eq_one_iff.mp hlen
    rw [he, getElem?_cons_zero, some.injEq] at hone
    rw [he, hone]
  · cases hone

theorem Children.Holds.takeOnlyChild {N : Type} {c : Children N} {f : UInt8 → Option N}
    (h : c.Holds f) {edge : UInt8} {node : N} (hone : c.onlyChildRef = some (edge, node)) :
    Outcome c.takeOnlyChild (fun result => result.1 = some (edge, node)) (fun _ => False) := by
  have hf : f edge = some node := mem_edgesOf.mp (by rw [h.onlyChildRef hone]; exact mem_cons_self)
  unfold Children.takeOnlyChild
  rw [hone]
  refine .bind (h.remove edge) fun result hresult => Outcome.pure ?_
  rw [hresult.1, hf]
  rfl

namespace Node

/-! ## Recompression -/

/-- A node without an entry is its only child under a longer prefix. -/
theorem get_merge {pfx : Key} {children : Children (Node V)} {f : UInt8 → Option (Node V)}
    (holds : children.Holds f) {edge : UInt8} {child : Node V} (hedges : edgesOf f = [(edge, child)])
    (key : Key) :
    (Node.mk (pfx ++ edge :: child.pfx) child.entry child.children).get key =
      (Node.mk pfx none children).get key := by
  rw [get_split, get_eq]
  change _ = (strip pfx key).bind _
  cases strip pfx key with
  | none => rfl
  | some r =>
    rw [bind_some, bind_some]
    cases r with
    | nil => rfl
    | cons e r =>
      rw [after_mk _ _ holds]
      by_cases he : e = edge
      · have hf : f e = some child := mem_edgesOf.mp (by rw [hedges, he]; exact mem_cons_self)
        simp only [if_pos he, hf, bind_some]
        obtain ⟨cpfx, centry, cchildren⟩ := child
        rfl
      · have hf : f e = none := by
          cases hf : f e with
          | none => rfl
          | some other =>
            have := mem_edgesOf.mpr hf
            rw [hedges, mem_singleton, Prod.mk.injEq] at this
            exact absurd this.1 he
        simp only [if_neg he, hf]
        rfl

variable {path : Key} {node : Node V}

theorem recompress_outcome (h : Wf path node) :
    Outcome node.recompressUnaryBestEffort (Stays path node) (fun _ => False) := by
  have hself : Stays path node node := ⟨h, fun _ => rfl⟩
  unfold recompressUnaryBestEffort
  cases hone : node.children.onlyChildRef with
  | none => exact .pure hself
  | some only =>
    obtain ⟨edge, child⟩ := only
    simp only
    split
    · exact .pure hself
    · next hentry =>
      split
      · exact .pure hself
      · refine .bind Outcome.granted fun answer _ => ?_
        cases answer with
        | false => exact .pure hself
        | true =>
          cases h with
          | @mk _ pfx entry children f holds key below =>
            have hnone : entry = none := by
              simpa [Node.entry] using hentry
            subst hnone
            have hedges := holds.onlyChildRef hone
            have hf : f edge = some child :=
              mem_edgesOf.mp (by rw [hedges]; exact mem_cons_self)
            simp only [if_true]
            refine .bind (holds.takeOnlyChild hone) ?_
            rintro ⟨_, children'⟩ rfl
            refine .pure ⟨?_, get_merge holds hedges⟩
            have hchild := below edge child hf
            obtain ⟨cpfx, centry, cchildren⟩ := child
            exact hchild.rebase (by simp [Node.pfx])

/-! ## Taking an entry out -/

theorem Stays.becomes {node' node'' : Node V} {key : Key} {x : Option V}
    (h : Stays path node' node'') (h' : Becomes path node key x node') :
    Becomes path node key x node'' := by
  refine ⟨h.1, fun k => ?_⟩
  rw [h.2 k, h'.2 k]

theorem get_of_drop {remaining rest : Key} (hpfx : node.pfx.isPrefixOf remaining = true)
    (hrest : remaining.drop node.pfx.length = rest) :
    remaining = node.pfx ++ rest ∧ node.get remaining = node.after rest := by
  obtain ⟨tail, rfl⟩ := isPrefixOf_iff_prefix.mp hpfx
  rw [drop_left] at hrest
  subst hrest
  exact ⟨rfl, get_append node tail⟩

theorem get_of_outside {remaining : Key}
    (hpfx : ¬ node.pfx.isPrefixOf remaining = true) : node.get remaining = none := by
  rw [get_eq, strip, if_neg hpfx]
  rfl

theorem takeEntry_outcome (h : Wf path node) (remaining : Key) :
    Outcome (node.takeEntry remaining)
      (fun result => match result with
        | none => node.get remaining = none
        | some (value, _, node') => node.get remaining = some value ∧
          Becomes path node remaining none node')
      (fun _ => False) := by
  induction h generalizing remaining with
  | @mk path pfx entry children f holds key below ih =>
    rw [takeEntry]
    split
    · next hpfx =>
      split
      · next hrest =>
        obtain ⟨hkey, hget⟩ := get_of_drop hpfx hrest
        rw [hget]
        rw [Node.pfx, append_nil] at hkey
        subst hkey
        cases entry with
        | none => exact .pure rfl
        | some entry =>
          have htaken := becomes_entry (.mk f holds key below) none (fun _ h => by cases h)
          refine .bind (recompress_outcome htaken.1) fun node' hstays => ?_
          exact .pure ⟨rfl, hstays.becomes htaken⟩
      · next edge rest hrest =>
        obtain ⟨hkey, hget⟩ := get_of_drop hpfx hrest
        rw [Node.pfx] at hkey
        subst hkey
        rw [hget, after_mk _ _ holds, Node.children, holds.get_eq]
        cases hf : f edge with
        | none => exact .pure rfl
        | some child =>
          refine .bind (ih edge child hf rest) fun result hresult => ?_
          cases result with
          | none => exact .pure hresult
          | some found =>
            obtain ⟨value, empty, child'⟩ := found
            exact .pure ⟨hresult.1, hresult.2.child holds key below hf⟩
    · next hpfx => exact .pure (get_of_outside hpfx)

/-! ## Pruning -/

theorem get_of_isEmpty (h : Wf path node) (hempty : node.isEmpty = true)
    (key : Key) : node.get key = none := by
  cases h with
  | @mk _ pfx entry children f holds _ _ =>
    simp only [isEmpty, Node.entry, Node.children, Bool.and_eq_true, isNone_iff_eq_none,
      beq_iff_eq, holds.len_eq, length_eq_zero_iff] at hempty
    rw [get_eq]
    cases strip (Node.mk pfx entry children).pfx key with
    | none => rfl
    | some r =>
      rw [bind_some]
      cases r with
      | nil =>
        rw [after, Node.entry, hempty.1]
        rfl
      | cons e r =>
        rw [after_mk _ _ holds]
        cases hf : f e with
        | none => rfl
        | some child =>
          have := mem_edgesOf.mpr hf
          rw [hempty.2] at this
          cases this

theorem pruneOne_outcome (h : Wf path node) (remaining : Key) :
    Outcome (node.pruneOneEmptyChildOnPath remaining)
      (fun result => ∀ node', result = some node' → Stays path node node') (fun _ => False) := by
  induction h generalizing remaining with
  | @mk path pfx entry children f holds key below ih =>
    rw [pruneOneEmptyChildOnPath]
    split
    · next hpfx =>
      split
      · exact .pure fun _ h => by cases h
      · next edge rest hrest =>
        have hkey := (get_of_drop hpfx hrest).1
        rw [Node.pfx] at hkey
        subst hkey
        simp only [Node.children, Node.pfx, Node.entry]
        rw [holds.get_eq]
        cases hf : f edge with
        | none => exact .pure fun _ h => by cases h
        | some child =>
          simp only
          split
          · next hempty =>
            refine .bind (holds.remove edge) fun removed hremoved => ?_
            have hstays : Stays path (.mk pfx entry children) (.mk pfx entry removed.2) := by
              refine ⟨Wf.update key below hremoved.2 (fun _ h => by cases h),
                fun k => get_same (fun r => ?_) k⟩
              cases r with
              | nil => rfl
              | cons e r =>
                rw [after_mk _ _ hremoved.2, after_mk _ _ holds]
                by_cases he : e = edge
                · subst he
                  rw [Function.update_self, hf, bind_some,
                    get_of_isEmpty (below e child hf) hempty]
                  rfl
                · rw [Function.update_of_ne he]
            refine .bind (recompress_outcome hstays.1) fun node' hnode' => ?_
            refine .pure ?_
            rintro _ hsome
            cases hsome
            exact ⟨hnode'.1, fun k => by rw [hnode'.2 k, hstays.2 k]⟩
          · refine .bind (ih edge child hf rest) fun result hresult => ?_
            cases result with
            | none => exact .pure fun _ h => by cases h
            | some child' =>
              refine .pure ?_
              rintro _ hsome
              cases hsome
              exact (hresult child' rfl).child holds key below hf
    · exact .pure fun _ h => by cases h

theorem prune_outcome (remaining : Key) (rounds : ℕ) : ∀ node : Node V, Wf path node →
      Outcome (prune rounds node remaining) (Stays path node) (fun _ => False) := by
  induction rounds with
  | zero =>
    intro node h
    exact .pure ⟨h, fun _ => rfl⟩
  | succ rounds ih =>
    intro node h
    refine .bind (pruneOne_outcome h remaining) fun result hresult => ?_
    cases result with
    | none => exact .pure ⟨h, fun _ => rfl⟩
    | some node' =>
      obtain ⟨hwf, hget⟩ := hresult node' rfl
      refine (ih node' hwf).weaken ?_ fun _ h => h
      rintro node'' ⟨hwf', hget'⟩
      exact ⟨hwf', fun k => by rw [hget' k, hget k]⟩

theorem remove_outcome (h : Wf path node) (remaining : Key) : Outcome (node.remove remaining)
      (fun result => result.1 = node.get remaining ∧ Becomes path node remaining none result.2)
      (fun _ => False) := by
  refine .bind (takeEntry_outcome h remaining) fun result hresult => ?_
  cases result with
  | none =>
    refine .pure ⟨hresult.symm, h, fun k => ?_⟩
    split
    · next hk => rw [hk, hresult]
    · rfl
  | some found =>
    obtain ⟨value, empty, node'⟩ := found
    obtain ⟨hget, hbecomes⟩ := hresult
    cases empty with
    | false => exact .pure ⟨hget.symm, hbecomes⟩
    | true =>
      refine .bind (prune_outcome remaining remaining.length node' hbecomes.1)
        fun node'' hstays => ?_
      exact .pure ⟨hget.symm, hstays.becomes hbecomes⟩

/-! ## Writes through `get_mut` -/

theorem modify_spec (h : Wf path node) (write : V → V) (remaining : Key) :
    Becomes path node remaining ((node.get remaining).map write) (node.modify remaining write) := by
  induction h generalizing remaining with
  | @mk path pfx entry children f holds key below ih =>
    have h : Wf path (.mk pfx entry children) := .mk f holds key below
    have hsame : (Node.mk pfx entry children).get remaining = none → Becomes path
        (.mk pfx entry children) remaining (((Node.mk pfx entry children).get remaining).map write)
        (.mk pfx entry children) := by
      intro hnone
      refine ⟨h, fun k => ?_⟩
      split
      · next hk => rw [hk, hnone]; rfl
      · rfl
    rw [modify]
    split
    · next hpfx =>
      split
      · next hrest =>
        obtain ⟨hkey, hget⟩ := get_of_drop hpfx hrest
        rw [hget]
        rw [Node.pfx, List.append_nil] at hkey
        subst hkey
        have hkeys : ∀ e, (entry.map fun entry => { entry with value := write entry.value }) = some e →
            e.key = path ++ remaining := by
          intro e he
          obtain ⟨old, hold, rfl⟩ := Option.map_eq_some_iff.mp he
          exact key old hold
        have hentry := becomes_entry h _ hkeys
        rw [Option.map_map] at hentry
        simp only [after, Node.entry, Option.map_map]
        exact hentry
      · next edge rest hrest =>
        obtain ⟨hkey, hget⟩ := get_of_drop hpfx hrest
        rw [Node.pfx] at hkey
        subst hkey
        rw [after_mk _ _ holds] at hget
        simp only [Node.children, Node.pfx, Node.entry]
        rw [holds.get_eq]
        cases hf : f edge with
        | none =>
          refine hsame ?_
          rw [hget, hf]
          rfl
        | some child =>
          rw [hget, hf, Option.bind_some]
          exact (ih edge child hf rest).child holds key below hf
    · next hpfx => exact hsame (get_of_outside hpfx)

/-! ## The keys under a prefix -/

/-- The entries of a node below `path`, by their full keys. -/
def Maps (path : Key) (node : Node V) (fullKey : Key) (value : V) : Prop :=
  ∃ rest, fullKey = path ++ rest ∧ node.get rest = some value

/-- The descent goes on below an edge. -/
theorem findPrefixNode_child {shared : Key} {entry : Option (Entry V)} {children : Children (Node V)}
    {edge : UInt8} {right : Key}
    (hlen : commonPrefixLen shared (shared ++ edge :: right) = shared.length) :
    (Node.mk shared entry children).findPrefixNode (shared ++ edge :: right) =
      (children.get edge).bind fun child => child.findPrefixNode right := by
  rw [findPrefixNode]
  simp only [Node.pfx, Node.children, hlen]
  rw [if_neg (by simp), if_neg (by simp)]
  split
  · next hrest =>
    rw [hlen, drop_left] at hrest
    cases hrest
  · next e r hrest =>
    rw [hlen, drop_left] at hrest
    cases hrest
    cases children.get edge <;> rfl

theorem findPrefixNode_spec (h : Wf path node) (remaining : Key) :
    match node.findPrefixNode remaining with
    | none => ∀ rest, node.get (remaining ++ rest) = none
    | some found => ∃ path', Wf path' found ∧ ∀ fullKey value, Maps path' found fullKey value ↔
        ∃ rest, fullKey = path ++ (remaining ++ rest) ∧ node.get (remaining ++ rest) = some value := by
  induction h generalizing remaining with
  | @mk path pfx entry children f holds key below ih =>
    obtain ⟨shared, left, right, rfl, rfl, hlen, hpart⟩ := commonPrefixLen_spec pfx remaining
    cases right with
    | nil =>
      -- The prefix ends inside the node's prefix: all its keys go on from it.
      rw [findPrefixNode]
      simp only [Node.pfx, hlen]
      rw [if_pos (by simp)]
      refine ⟨path, .mk f holds key below, fun fullKey value => ⟨?_, ?_⟩⟩
      · rintro ⟨rest, rfl, hget⟩
        have hsome := hget
        rw [get_eq, bind_eq_some_iff] at hsome
        obtain ⟨r, hstrip, -⟩ := hsome
        refine ⟨left ++ r, ?_, ?_⟩
        · rw [strip_eq_some.mp hstrip]
          simp [Node.pfx]
        · have hrest := strip_eq_some.mp hstrip
          simp only [Node.pfx] at hrest
          rwa [append_nil, ← append_assoc, ← hrest]
      · rintro ⟨rest, rfl, hget⟩
        exact ⟨_, rfl, hget⟩
    | cons edge right =>
      cases left with
      | cons oldEdge suffix =>
        rw [findPrefixNode]
        simp only [Node.pfx, hlen]
        rw [if_neg (by simp), if_pos (by simp)]
        intro rest
        have hne : oldEdge ≠ edge := by
          rintro rfl
          exact hpart _ _ _ rfl rfl
        rw [append_assoc, cons_append]
        exact get_parted (fun r heq => hne (cons.inj heq).1) entry children
      | nil =>
        rw [append_nil] at hlen ⊢
        have hget : ∀ rest, (Node.mk shared entry children).get (shared ++ edge :: right ++ rest) =
            (Node.mk shared entry children).after (edge :: (right ++ rest)) := by
          intro rest
          rw [append_assoc, cons_append]
          exact get_append (.mk shared entry children) (edge :: (right ++ rest))
        rw [findPrefixNode_child hlen]
        simp only [hget, after_mk _ _ holds]
        rw [holds.get_eq]
        cases hf : f edge with
        | none => exact fun _ => rfl
        | some child =>
          have hchild := ih edge child hf right
          simp only [bind_some]
          cases hfound : child.findPrefixNode right with
          | none =>
            rw [hfound] at hchild
            exact hchild
          | some found =>
            rw [hfound] at hchild
            obtain ⟨path', hwf, hmaps⟩ := hchild
            refine ⟨path', hwf, fun fullKey value => ?_⟩
            rw [hmaps]
            simp

end Node

end FrankenGraph.Art

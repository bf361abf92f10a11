import FrankenGraph.Collections.Iteration
import FrankenGraph.Library.OrderedMap

/-!
# The tree as an ordered map

Over any sequence of calls, with any subset of the requests refused, the tree answers as a
lexicographically ordered map that is updated by the calls that return `Ok`.

Results:
* `call_refines`: one call
* `radix_tree_refines`: every sequence of calls
-/

namespace FrankenGraph.Art

variable {V : Type}

/-! ## Calls -/

/-- The calls on a tree; a call of `get_mut` says what is written through the reference. -/
inductive Call (V : Type)
  | insert (key : Key) (value : V)
  | get (key : Key)
  | getMut (key : Key) (write : V → V)
  | remove (key : Key)
  | iter
  | keysWith (pfx : Key)
  | range (start stop : Bound)

/-- What a call returns. An iterator run to its end is a list once its fuel suffices. -/
inductive Response (V : Type)
  | changed (result : Except ArtError (Option V))
  | found (value : Option V)
  | listed (items : ℕ → Option (List (Key × V)))

/-- The result of a fallible call on a tree and the tree afterwards. -/
def settle (outcome : Except (ArtError × AdaptiveRadixTree V) (Option V × AdaptiveRadixTree V)) :
    Response V × AdaptiveRadixTree V :=
  match outcome with
  | .ok (old, tree) => (.changed (.ok old), tree)
  | .error (error, tree) => (.changed (.error error), tree)

/-- One call, with the answers to its requests. -/
def AdaptiveRadixTree.call (tree : AdaptiveRadixTree V) (answers : Answers) :
    Call V → Response V × AdaptiveRadixTree V
  | .insert key value => settle ((tree.tryInsert key value).exec answers).1
  | .get key => (.found (tree.get key), tree)
  | .getMut key write => (.found (tree.getMut key write).1, (tree.getMut key write).2)
  | .remove key => settle ((tree.remove key).exec answers).1
  | .iter => (.listed tree.iter, tree)
  | .keysWith pfx => (.listed (tree.prefixIter pfx), tree)
  | .range start stop => (.listed (tree.range start stop), tree)

/-- A sequence of calls, each with the answers to its requests. -/
def AdaptiveRadixTree.run (tree : AdaptiveRadixTree V) :
    List (Call V × Answers) → List (Response V) × AdaptiveRadixTree V
  | [] => ([], tree)
  | (call, answers) :: calls =>
    let (response, tree) := tree.call answers call
    let (responses, tree) := tree.run calls
    (response :: responses, tree)

/-! ## The ordered map -/

/-- An iterator that yields these items. -/
def Lists (items : ℕ → Option (List (Key × V))) (l : List (Key × V)) : Prop :=
  ∃ enough, ∀ fuel ≥ enough, items fuel = some l

/-- The errors a call may return: a limit that is exceeded, or a request that was refused. -/
def Permitted (limits : ArtLimits) (m : BTreeMap Key V) (key : Key) (answers : Answers) :
    ArtError → Prop
  | .keyTooLong len max => len = key.length ∧ max = limits.maxKeyBytes ∧ max < len
  | .entryLimitReached max => max = limits.maxEntries ∧ m[key]? = none ∧ max ≤ m.size
  | .region _ => false ∈ answers
  | .invariantViolation _ => False
  | .panic => False

/-- What an ordered map answers to a call, and the map afterwards: a call that returns an error changes
nothing. -/
def Expected (limits : ArtLimits) (m : BTreeMap Key V) (answers : Answers) :
    Call V → Response V → BTreeMap Key V → Prop
  | .insert key value, .changed (.ok old), m' => old = m[key]? ∧ m' = m.insert key value
  | .insert key _, .changed (.error error), m' => Permitted limits m key answers error ∧ m' = m
  | .get key, .found value, m' => value = m[key]? ∧ m' = m
  | .getMut key write, .found value, m' =>
    value = m[key]? ∧ m' = (match m[key]? with
      | none => m
      | some old => m.insert key (write old))
  | .remove key, .changed (.ok old), m' => old = m[key]? ∧ m' = m.erase key
  | .remove _, .changed (.error error), m' =>
    (∃ operation, error = .region operation) ∧ false ∈ answers ∧ m' = m
  | .iter, .listed items, m' => Lists items m.toList ∧ m' = m
  | .keysWith pfx, .listed items, m' =>
    Lists items (m.toList.filter fun item => pfx.isPrefixOf item.1) ∧ m' = m
  | .range start stop, .listed items, m' =>
    Lists items (m.toList.filter fun item => start.aboveStart item.1 && stop.belowEnd item.1) ∧ m' = m
  | _, _, _ => False

/-- The responses of an ordered map to a sequence of calls. -/
inductive Answered (limits : ArtLimits) :
    BTreeMap Key V → List (Call V × Answers) → List (Response V) → BTreeMap Key V → Prop
  | nil {m : BTreeMap Key V} : Answered limits m [] [] m
  | cons {m m' m'' : BTreeMap Key V} {call : Call V} {answers : Answers} {response : Response V}
    {calls : List (Call V × Answers)} {responses : List (Response V)}
    (first : Expected limits m answers call response m')
    (rest : Answered limits m' calls responses m'') :
    Answered limits m ((call, answers) :: calls) (response :: responses) m''

/-! ## Representation -/

/-- The tree represents the map. -/
structure Represents (tree : AdaptiveRadixTree V) (m : BTreeMap Key V) : Prop where
  wf : ∀ root, tree.root = some root → Node.Wf [] root
  get : ∀ key, tree.get key = m[key]?
  len : tree.len = m.size

theorem represents_new (limits : ArtLimits) :
    Represents (AdaptiveRadixTree.withLimitsIn limits : AdaptiveRadixTree V) ∅ := by
  refine ⟨(fun root h => nomatch h), fun key => ?_, ?_⟩
  · simp [AdaptiveRadixTree.get, AdaptiveRadixTree.withLimitsIn]
  · simp [AdaptiveRadixTree.withLimitsIn]

namespace Represents

variable {tree : AdaptiveRadixTree V} {m : BTreeMap Key V}

theorem getRoot (h : Represents tree m) {root : Node V} (hroot : tree.root = some root) (key : Key) :
    root.get key = m[key]? := by
  have := h.get key
  rwa [AdaptiveRadixTree.get, hroot] at this

variable {keep : Key × V → Bool}

/-- Items in order with the entries of a map are its list. -/
theorem eq_filter {items : List (Key × V)} (hsorted : Ascending items)
    (hmem : ∀ key value, (key, value) ∈ items ↔ m[key]? = some value ∧ keep (key, value) = true) :
    items = m.toList.filter keep := by
  have hasc : Ascending (m.toList.filter keep) :=
    List.Pairwise.filter _ Std.ExtTreeMap.ordered_keys_toList
  have hnodup : ∀ l : List (Key × V), Ascending l → l.Nodup := by
    intro l hl
    refine hl.imp ?_
    rintro a b hlt rfl
    have hself : compare a.1 a.1 = .eq := Std.ReflCmp.compare_self
    rw [hself] at hlt
    cases hlt
  have hperm : items.Perm (m.toList.filter keep) := by
    refine (List.perm_ext_iff_of_nodup (hnodup _ hsorted) (hnodup _ hasc)).mpr ?_
    rintro ⟨key, value⟩
    rw [hmem, List.mem_filter, Std.ExtTreeMap.mem_toList_iff_getElem?_eq_some]
  refine hperm.eq_of_pairwise ?_ hsorted hasc
  intro a b _ _ hab hba
  have hswap : compare a.1 b.1 = (compare b.1 a.1).swap := Std.OrientedCmp.eq_swap
  rw [hswap, hba] at hab
  cases hab

/-- A stack of one node lists the entries of the node. -/
theorem lists_node {path : Key} {node : Node V} (hwf : Node.Wf path node)
    (hmaps : ∀ key value, Node.Maps path node key value ↔
      m[key]? = some value ∧ keep (key, value) = true) :
    Lists (fun fuel => iterAll fuel fuel [IterFrame.start node]) (m.toList.filter keep) := by
  obtain ⟨items, hyields, hsorted, hmem⟩ := Node.items_of_wf hwf
  have heq := eq_filter hsorted (fun key value => (hmem key value).trans (hmaps key value))
  have hall := hyields [] [] .done
  rw [List.append_nil] at hall
  obtain ⟨enough, hiter⟩ := iterAll_of_yields items _ hall
  refine ⟨max enough (items.length + 1), fun fuel hfuel => ?_⟩
  rw [← heq]
  exact hiter fuel (by omega) fuel (by omega)

theorem lists_empty (hnone : ∀ key value, m[key]? = some value → keep (key, value) = false) :
    Lists (fun fuel => iterAll fuel fuel []) (m.toList.filter keep) := by
  have heq : ([] : List (Key × V)) = m.toList.filter keep := by
    refine eq_filter List.Pairwise.nil fun key value => ?_
    constructor
    · intro h
      cases h
    · rintro ⟨hsome, hkeep⟩
      rw [hnone key value hsome] at hkeep
      cases hkeep
  obtain ⟨enough, hiter⟩ := iterAll_of_yields ([] : List (Key × V)) [] .done
  refine ⟨max enough 1, fun fuel hfuel => ?_⟩
  rw [← heq]
  exact hiter fuel (by omega) fuel (by simp; omega)

theorem lookup_none (h : Represents tree m) (hroot : tree.root = none) (key : Key) :
    m[key]? = none := by
  rw [← h.get key, AdaptiveRadixTree.get, hroot]

theorem lists_iter (h : Represents tree m) : Lists tree.iter m.toList := by
  have hfilter : m.toList = m.toList.filter fun _ => true := by simp
  rw [hfilter]
  unfold AdaptiveRadixTree.iter
  cases hroot : tree.root with
  | none =>
    refine lists_empty fun key value hsome => ?_
    rw [h.lookup_none hroot] at hsome
    cases hsome
  | some root =>
    refine lists_node (h.wf root hroot) fun key value => ?_
    simp [Node.Maps, h.getRoot hroot]

theorem lists_prefix (h : Represents tree m) (pfx : Key) :
    Lists (tree.prefixIter pfx) (m.toList.filter fun item => pfx.isPrefixOf item.1) := by
  unfold AdaptiveRadixTree.prefixIter
  cases hroot : tree.root with
  | none =>
    refine lists_empty fun key value hsome => ?_
    rw [h.lookup_none hroot] at hsome
    cases hsome
  | some root =>
    have hfind := Node.findPrefixNode_spec (h.wf root hroot) pfx
    simp only [Option.bind_some]
    cases hnode : root.findPrefixNode pfx with
    | none =>
      rw [hnode] at hfind
      refine lists_empty fun key value hsome => ?_
      rw [Bool.eq_false_iff]
      intro hprefix
      obtain ⟨rest, rfl⟩ := List.isPrefixOf_iff_prefix.mp hprefix
      rw [← h.getRoot hroot, hfind rest] at hsome
      cases hsome
    | some node =>
      rw [hnode] at hfind
      obtain ⟨path, hwf, hmaps⟩ := hfind
      refine lists_node hwf fun key value => ?_
      rw [hmaps]
      constructor
      · rintro ⟨rest, rfl, hget⟩
        rw [h.getRoot hroot] at hget
        exact ⟨hget, List.isPrefixOf_iff_prefix.mpr (List.prefix_append _ _)⟩
      · rintro ⟨hsome, hprefix⟩
        obtain ⟨rest, rfl⟩ := List.isPrefixOf_iff_prefix.mp hprefix
        exact ⟨rest, rfl, by rw [h.getRoot hroot, hsome]⟩

end Represents

/-! ## Ranges -/

/-- A key below the end has all smaller keys below it. -/
theorem belowEnd_of_lt {stop : Bound} {a b : Key} (hab : compare a b = .lt)
    (h : stop.belowEnd b = true) : stop.belowEnd a = true := by
  cases stop with
  | unbounded => rfl
  | included key =>
    have hle : (compare a b).isLE = true := by rw [hab]; rfl
    exact Std.TransCmp.isLE_trans hle h
  | excluded key =>
    have hb : compare b key = .lt := of_decide_eq_true h
    exact decide_eq_true (Std.TransCmp.lt_trans hab hb)

/-- Stopping at the first key past the end loses nothing. -/
theorem rangeItems_eq (start stop : Bound) (items : List (Key × V)) (h : Ascending items) :
    rangeItems start stop items =
      items.filter fun item => start.aboveStart item.1 && stop.belowEnd item.1 := by
  induction items with
  | nil => rfl
  | cons item items ih =>
    obtain ⟨hfirst, hrest⟩ := List.pairwise_cons.mp h
    rw [rangeItems]
    cases habove : start.aboveStart item.1 with
    | false => simp [habove, ih hrest]
    | true =>
      cases hbelow : stop.belowEnd item.1 with
      | true => simp [habove, hbelow, ih hrest]
      | false =>
        have hnone : ∀ x ∈ items, stop.belowEnd x.1 = false := by
          intro x hx
          rw [Bool.eq_false_iff]
          intro hx'
          rw [belowEnd_of_lt (hfirst x hx) hx'] at hbelow
          cases hbelow
        have hempty : items.filter (fun item => start.aboveStart item.1 && stop.belowEnd item.1) =
            [] := by
          rw [List.filter_eq_nil_iff]
          intro x hx
          simp [hnone x hx]
        simp [habove, hbelow, hempty]

theorem Represents.lists_range {tree : AdaptiveRadixTree V} {m : BTreeMap Key V}
    (h : Represents tree m) (start stop : Bound) :
    Lists (tree.range start stop)
      (m.toList.filter fun item => start.aboveStart item.1 && stop.belowEnd item.1) := by
  obtain ⟨enough, hiter⟩ := h.lists_iter
  refine ⟨enough, fun fuel hfuel => ?_⟩
  rw [AdaptiveRadixTree.range, hiter fuel hfuel, Option.map_some,
    rangeItems_eq start stop m.toList Std.ExtTreeMap.ordered_keys_toList]

/-! ## One call -/

/-- The tree after a call: it represents `m` under the same limits. -/
def Keeps (limits : ArtLimits) (tree : AdaptiveRadixTree V) (m : BTreeMap Key V) : Prop :=
  Represents tree m ∧ tree.limits = limits

theorem size_insert (m : BTreeMap Key V) (key : Key) (value : V) :
    (m.insert key value).size = if m[key]?.isNone then m.size + 1 else m.size := by
  rw [Std.ExtTreeMap.size_insert]
  cases hget : m[key]? <;> simp [Std.ExtTreeMap.mem_iff_isSome_getElem?, hget]

theorem size_erase (m : BTreeMap Key V) (key : Key) :
    (m.erase key).size = if m[key]?.isNone then m.size else m.size - 1 := by
  rw [Std.ExtTreeMap.size_erase]
  cases hget : m[key]? <;> simp [Std.ExtTreeMap.mem_iff_isSome_getElem?, hget]

theorem lookup_insert_eq (m : BTreeMap Key V) (key : Key) (value : V) (k : Key) :
    (m.insert key value)[k]? = if k = key then some value else m[k]? := by
  rw [BTreeMap.lookup_insert]
  by_cases h : k = key
  · rw [if_pos h, if_pos h.symm]
  · rw [if_neg h, if_neg (Ne.symm h)]

theorem lookup_erase_eq (m : BTreeMap Key V) (key k : Key) :
    (m.erase key)[k]? = if k = key then none else m[k]? := by
  rw [BTreeMap.lookup_erase]
  by_cases h : k = key
  · rw [if_pos h, if_pos h.symm]
  · rw [if_neg h, if_neg (Ne.symm h)]

/-- A tree with this root. -/
theorem represents_root {limits : ArtLimits} {m : BTreeMap Key V} {root : Node V} {len : ℕ}
    (hwf : Node.Wf [] root) (hget : ∀ key, root.get key = m[key]?) (hlen : len = m.size) :
    Represents ⟨some root, len, limits⟩ m := by
  refine ⟨?_, hget, hlen⟩
  rintro _ hsome
  cases hsome
  exact hwf

namespace Represents

variable {tree : AdaptiveRadixTree V} {m : BTreeMap Key V}

section

variable (h : Represents tree m)
include h

/-- An insertion past the limits: the map with the key, or the old map. -/
theorem insert_outcome (key : Key) (value : V) (len : ℕ) (hlen : len = (m.insert key value).size) :
    Outcome (tree.insertAdmitted key value len)
      (fun result => result.1 = m[key]? ∧ Keeps tree.limits result.2 (m.insert key value))
      (fun failure => (∃ operation, failure.1 = .region operation) ∧ Keeps tree.limits failure.2 m) := by
  refine Outcome.bind (Outcome.request ⟨⟨_, rfl⟩, h, rfl⟩) fun _ _ => ?_
  cases hroot : tree.root with
  | some root =>
    refine Outcome.translate ((Node.tryInsert_outcome (h.wf root hroot) value rfl).weaken ?_ ?_)
    · rintro result ⟨hold, hwf, hget⟩
      refine ⟨by rw [hold, h.getRoot hroot], represents_root hwf (fun k => ?_) hlen, rfl⟩
      rw [hget k, lookup_insert_eq, h.getRoot hroot]
    · rintro failure ⟨hregion, hwf, hget⟩
      refine ⟨hregion, represents_root hwf (fun k => ?_) h.len, rfl⟩
      rw [hget k, h.getRoot hroot]
  | none =>
    refine Outcome.bind (Node.tryLeaf_outcome (fun operation => ⟨⟨operation, rfl⟩, h, rfl⟩) key key
      value) ?_
    rintro _ rfl
    refine Outcome.pure ⟨(h.lookup_none hroot key).symm,
      represents_root (Node.leaf_wf rfl value) (fun k => ?_) hlen, rfl⟩
    rw [Node.leaf_get, lookup_insert_eq, h.lookup_none hroot k]

omit h in
/-- The response of a fallible call and the tree after it. -/
theorem settle_spec {code : Effect (ArtError × AdaptiveRadixTree V) Answers
      (Option V × AdaptiveRadixTree V)} {Q : Option V × AdaptiveRadixTree V → Prop}
    {E : ArtError × AdaptiveRadixTree V → Prop} (h : Outcome code Q E) (answers : Answers) :
    (∃ old tree', settle (code.exec answers).1 = (.changed (.ok old), tree') ∧ Q (old, tree')) ∨
    ∃ error tree', settle (code.exec answers).1 = (.changed (.error error), tree') ∧
      E (error, tree') ∧ false ∈ answers := by
  have hcode := h answers
  cases hrun : code.exec answers with
  | mk result rest =>
    rw [hrun] at hcode
    cases result with
    | ok result => exact Or.inl ⟨result.1, result.2, rfl, hcode.1⟩
    | error failure => exact Or.inr ⟨failure.1, failure.2, rfl, hcode⟩

theorem call_insert (answers : Answers) (key : Key) (value : V) :
    ∃ m', Expected tree.limits m answers (.insert key value) (tree.call answers (.insert key value)).1
        m' ∧
      Keeps tree.limits (tree.call answers (.insert key value)).2 m' := by
  simp only [AdaptiveRadixTree.call, AdaptiveRadixTree.tryInsert]
  by_cases hlong : tree.limits.maxKeyBytes < key.length
  · rw [if_pos hlong]
    exact ⟨m, ⟨⟨rfl, rfl, hlong⟩, rfl⟩, h, rfl⟩
  rw [if_neg hlong]
  by_cases hfull : (tree.get key).isNone = true ∧ tree.limits.maxEntries ≤ tree.len
  · rw [if_pos hfull]
    rw [h.get, h.len, Option.isNone_iff_eq_none] at hfull
    exact ⟨m, ⟨⟨rfl, hfull⟩, rfl⟩, h, rfl⟩
  rw [if_neg hfull]
  have hlen : (if (tree.get key).isNone = true then tree.len + 1 else tree.len) =
      (m.insert key value).size := by
    rw [size_insert, h.get, h.len]
  obtain ⟨old, tree', heq, hold, hkeeps⟩ | ⟨error, tree', heq, ⟨⟨operation, hregion⟩, hkeeps⟩, hrefused⟩ :=
    settle_spec (h.insert_outcome key value _ hlen) answers
  · rw [heq]
    exact ⟨m.insert key value, ⟨hold, rfl⟩, hkeeps⟩
  · rw [heq]
    simp only at hregion
    subst hregion
    exact ⟨m, ⟨hrefused, rfl⟩, hkeeps⟩

theorem remove_outcome (key : Key) : Outcome (tree.remove key)
      (fun result => result.1 = m[key]? ∧ Keeps tree.limits result.2 (m.erase key))
      (fun failure => (∃ operation, failure.1 = .region operation) ∧ Keeps tree.limits failure.2 m) := by
  refine Outcome.bind (Outcome.request ⟨⟨_, rfl⟩, h, rfl⟩) fun _ _ => ?_
  have hsize := size_erase m key
  cases hroot : tree.root with
  | none =>
    have hnone := h.lookup_none hroot
    refine Outcome.pure ⟨(hnone key).symm, ⟨h.wf, fun k => ?_, ?_⟩, rfl⟩
    · rw [h.get, lookup_erase_eq, hnone k]
      simp
    · rw [hsize, hnone key, h.len]
      rfl
  | some root =>
    have hremove : Outcome ((root.remove key).translate id fun error => (error, tree))
        (fun result => result.1 = root.get key ∧ Node.Becomes [] root key none result.2)
        (fun failure => (∃ operation, failure.1 = .region operation) ∧
          Keeps tree.limits failure.2 m) := by
      refine Outcome.translate ((Node.remove_outcome (h.wf root hroot) key).weaken ?_ ?_)
      · exact fun _ h => h
      · exact fun _ h => h.elim
    refine Outcome.bind hremove ?_
    rintro ⟨removed, root'⟩ ⟨hremoved, hwf, hget⟩
    have hget' : ∀ k, root'.get k = (m.erase key)[k]? := by
      intro k
      rw [hget k, lookup_erase_eq, h.getRoot hroot]
    simp only at hremoved
    rw [h.getRoot hroot] at hremoved
    subst hremoved
    cases hold : m[key]? with
    | none =>
      rw [hold] at hsize
      exact Outcome.pure ⟨rfl, represents_root hwf hget' (h.len.trans hsize.symm), rfl⟩
    | some old =>
      rw [hold] at hsize
      have hlen : tree.len - 1 = (m.erase key).size := by
        rw [h.len]
        exact hsize.symm
      refine Outcome.pure ⟨rfl, ?_, rfl⟩
      by_cases hempty : root'.isEmpty = true
      · rw [if_pos hempty]
        refine ⟨(fun _ h => nomatch h), fun k => ?_, hlen⟩
        rw [← hget' k, Node.get_of_isEmpty hwf hempty k]
        rfl
      · rw [if_neg hempty]
        exact represents_root hwf hget' hlen

theorem call_remove (answers : Answers) (key : Key) :
    ∃ m', Expected tree.limits m answers (.remove key) (tree.call answers (.remove key)).1 m' ∧
      Keeps tree.limits (tree.call answers (.remove key)).2 m' := by
  simp only [AdaptiveRadixTree.call]
  obtain ⟨old, tree', heq, hold, hkeeps⟩ | ⟨error, tree', heq, ⟨hregion, hkeeps⟩, hrefused⟩ :=
    settle_spec (h.remove_outcome key) answers
  · rw [heq]
    exact ⟨m.erase key, ⟨hold, rfl⟩, hkeeps⟩
  · rw [heq]
    exact ⟨m, ⟨hregion, hrefused, rfl⟩, hkeeps⟩

theorem call_getMut (answers : Answers) (key : Key) (write : V → V) :
    ∃ m', Expected tree.limits m answers (.getMut key write)
        (tree.call answers (.getMut key write)).1 m' ∧
      Keeps tree.limits (tree.call answers (.getMut key write)).2 m' := by
  refine ⟨_, ⟨h.get key, rfl⟩, ⟨?_, ?_, ?_⟩, rfl⟩
  · intro root' hroot'
    obtain ⟨root, hroot, rfl⟩ := Option.map_eq_some_iff.mp hroot'
    exact (Node.modify_spec (h.wf root hroot) write key).1
  · intro k
    cases hroot : tree.root with
    | none =>
      have hnone := h.lookup_none hroot
      simp only [AdaptiveRadixTree.call, AdaptiveRadixTree.getMut, AdaptiveRadixTree.get, hroot,
        Option.map_none, hnone]
    | some root =>
      have hget := (Node.modify_spec (h.wf root hroot) write key).2 k
      simp only [AdaptiveRadixTree.call, AdaptiveRadixTree.getMut, AdaptiveRadixTree.get, hroot,
        Option.map_some]
      rw [hget, h.getRoot hroot, h.getRoot hroot]
      cases hold : m[key]? with
      | none =>
        by_cases hk : k = key
        · rw [if_pos hk, hk, hold]
          rfl
        · rw [if_neg hk]
      | some old =>
        rw [lookup_insert_eq]
        rfl
  · change tree.len = _
    rw [h.len]
    cases hold : m[key]? with
    | none => rfl
    | some old => rw [size_insert, hold]; rfl

/-- One call is answered as the ordered map answers it. -/
theorem call_refines (answers : Answers) (call : Call V) :
    ∃ m', Expected tree.limits m answers call (tree.call answers call).1 m' ∧
      Keeps tree.limits (tree.call answers call).2 m' := by
  cases call with
  | insert key value => exact h.call_insert answers key value
  | get key => exact ⟨m, ⟨h.get key, rfl⟩, h, rfl⟩
  | getMut key write => exact h.call_getMut answers key write
  | remove key => exact h.call_remove answers key
  | iter => exact ⟨m, ⟨h.lists_iter, rfl⟩, h, rfl⟩
  | keysWith pfx => exact ⟨m, ⟨h.lists_prefix pfx, rfl⟩, h, rfl⟩
  | range start stop => exact ⟨m, ⟨h.lists_range start stop, rfl⟩, h, rfl⟩

end

theorem run_refines (calls : List (Call V × Answers)) :
    ∀ (tree : AdaptiveRadixTree V) (m : BTreeMap Key V), Represents tree m →
      ∃ m', Answered tree.limits m calls (tree.run calls).1 m' ∧ Represents (tree.run calls).2 m' := by
  induction calls with
  | nil => exact fun tree m h => ⟨m, .nil, h⟩
  | cons first calls ih =>
    intro tree m h
    obtain ⟨call, answers⟩ := first
    obtain ⟨m', hexpected, hkept, hlimits⟩ := h.call_refines answers call
    obtain ⟨m'', hanswered, hend⟩ := ih _ m' hkept
    rw [hlimits] at hanswered
    exact ⟨m'', .cons hexpected hanswered, hend⟩

end Represents

/-- Every sequence of calls on a new tree, with any of the requests refused, is answered as a
lexicographically ordered map answers it. -/
theorem radix_tree_refines (limits : ArtLimits) (calls : List (Call V × Answers)) :
    ∃ m, Answered limits ∅ calls ((AdaptiveRadixTree.withLimitsIn limits).run calls).1 m ∧
      ((AdaptiveRadixTree.withLimitsIn limits).run calls).2.len = m.size := by
  obtain ⟨m, hanswered, hend⟩ :=
    Represents.run_refines calls _ ∅ (represents_new limits)
  exact ⟨m, hanswered, hend.len⟩

end FrankenGraph.Art

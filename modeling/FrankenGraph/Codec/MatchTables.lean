import FrankenGraph.Codec.Block

/-!
# The two match tables

A match table is for one thing: it keeps the latest position of every bucket. `Latest` says that with
a function, and both layouts of `block.rs` are proved to represent it.

The sparse layout is a radix tree of depth four in one vector. Every slot of the vector belongs to one
prefix of a bucket: the ghost function `owner` gives its level and the prefix.

Results:

* `replace_represents`: one `replace` of either layout is one `replace` of `Latest`.
* `compressLoop_latest`: the compressor's loop gives the same bytes with the function.
-/

namespace FrankenGraph.Codec

open List Option Function

/-- The latest position of every bucket. -/
abbrev Latest := ℕ → ℕ

/-- The table before the first position. -/
def Latest.new : Latest := fun _ => emptyPosition

/-- Puts a position in a bucket and gives the one it replaces. -/
def Latest.replace (latest : Latest) (bucket position : ℕ) : Option (ℕ × Latest) :=
  some (latest bucket, Function.update latest bucket position)

/-! ## The sparse layout -/

/-- The vector `entries` is a radix tree of `latest`; slot `s` is at level `(owner s).1` and belongs to
the prefix `(owner s).2`. Slots above the last level point to nodes of sixteen slots. -/
structure RadixTree (entries : List ℕ) (owner : ℕ → ℕ × ℕ) (latest : Latest) : Prop where
  root : ∀ i < 256, i < entries.length ∧ owner i = (0, i)
  down : ∀ s level p offset, owner s = (level, p) → level < 3 → entries[s]? = some offset →
    offset ≠ emptyPosition →
    offset + 16 ≤ entries.length ∧ ∀ d < 16, owner (offset + d) = (level + 1, p * 16 + d)
  up : ∀ s < entries.length, ∀ level p, owner s = (level + 1, p) →
    ∃ s' offset, owner s' = (level, p / 16) ∧ level < 3 ∧ entries[s']? = some offset ∧
      offset ≠ emptyPosition
  unique : ∀ s < entries.length, ∀ s' < entries.length, owner s = owner s' → s = s'
  leaf : ∀ s < entries.length, ∀ bucket, owner s = (3, bucket) → entries[s]? = some (latest bucket)
  absent : ∀ bucket, (∀ s < entries.length, owner s ≠ (3, bucket)) → latest bucket = emptyPosition

variable {entries : List ℕ}

theorem lt_length_of_getElem? {s x : ℕ} (h : entries[s]? = some x) : s < entries.length :=
  (List.getElem?_eq_some_iff.mp h).1

variable {owner : ℕ → ℕ × ℕ} {latest : Latest} {slot level p : ℕ}

/-- A missing node owns no slot yet. -/
theorem RadixTree.no_child (h : RadixTree entries owner latest) (hown : owner slot = (level, p))
    (hempty : entries[slot]? = some emptyPosition) {s q : ℕ} (hs : s < entries.length)
    (hq : q / 16 = p) : owner s ≠ (level + 1, q) := by
  intro hchild
  obtain ⟨s', offset, hs', -, hoffset, hne⟩ := h.up s hs level q hchild
  have : s' = slot :=
    h.unique s' (lt_length_of_getElem? hoffset) slot (lt_length_of_getElem? hempty)
      (by rw [hs', hown, hq])
  subst this
  rw [hoffset] at hempty
  exact hne (some.inj hempty)

/-- The owners after the node of `(level, p)` is appended at `len`. -/
def ownNode (owner : ℕ → ℕ × ℕ) (len level p : ℕ) (s : ℕ) : ℕ × ℕ :=
  if s < len then owner s else (level + 1, p * 16 + (s - len))

/-- The entries after a node is appended and `slot` points to it. -/
theorem getElem?_linkNode (hslot : slot < entries.length) (s : ℕ) :
    ((entries ++ replicate 16 emptyPosition).set slot entries.length)[s]? =
      if s = slot then some entries.length
      else if s < entries.length then entries[s]?
      else if s < entries.length + 16 then some emptyPosition else none := by
  by_cases hs : s = slot
  · subst hs
    rw [if_pos rfl, getElem?_set_self (by simp; omega)]
  · rw [if_neg hs, getElem?_set_ne (by omega)]
    by_cases hlt : s < entries.length
    · rw [if_pos hlt, getElem?_append_left hlt]
    · rw [if_neg hlt, getElem?_append_right (by omega), getElem?_replicate]
      by_cases hnew : s < entries.length + 16
      · rw [if_pos hnew, if_pos (by omega)]
      · rw [if_neg hnew, if_neg (by omega)]

theorem RadixTree.linkNode (h : RadixTree entries owner latest) (hown : owner slot = (level, p))
    (hlevel : level < 3) (hempty : entries[slot]? = some emptyPosition)
    (hroom : entries.length < emptyPosition) :
    RadixTree ((entries ++ replicate 16 emptyPosition).set slot entries.length)
      (ownNode owner entries.length level p) latest := by
  have hslot : slot < entries.length := lt_length_of_getElem? hempty
  have hlength : ((entries ++ replicate 16 emptyPosition).set slot entries.length).length =
      entries.length + 16 := by simp
  have hold : ∀ s < entries.length, ownNode owner entries.length level p s = owner s := by
    intro s hs
    exact if_pos hs
  have hnew : ∀ s, ¬ s < entries.length →
      ownNode owner entries.length level p s = (level + 1, p * 16 + (s - entries.length)) := by
    intro s hs
    exact if_neg hs
  refine ⟨?_, ?_, ?_, ?_, ?_, ?_⟩
  · intro i hi
    obtain ⟨hlt, hroot⟩ := h.root i hi
    rw [hlength, hold i hlt]
    exact ⟨by omega, hroot⟩
  · intro s l q offset howner hl hget hne
    rw [getElem?_linkNode hslot] at hget
    rw [hlength]
    by_cases hs : s = slot
    · subst hs
      rw [if_pos rfl, some.injEq] at hget
      rw [hold s hslot, hown, Prod.mk.injEq] at howner
      obtain ⟨rfl, rfl⟩ := howner
      subst hget
      refine ⟨Nat.le_refl _, fun d hd => ?_⟩
      rw [hnew _ (by omega)]
      simp
    · rw [if_neg hs] at hget
      by_cases hlt : s < entries.length
      · rw [if_pos hlt] at hget
        rw [hold s hlt] at howner
        obtain ⟨hfit, hnode⟩ := h.down s l q offset howner hl hget hne
        refine ⟨by omega, fun d hd => ?_⟩
        rw [hold _ (by omega), hnode d hd]
      · rw [if_neg hlt] at hget
        split at hget
        · exact absurd (some.inj hget).symm hne
        · cases hget
  · intro s hs l q howner
    -- The parent of an old slot is not the empty slot that is linked here.
    by_cases hlt : s < entries.length
    · rw [hold s hlt] at howner
      obtain ⟨s', offset, hs', hl, hoffset, hne⟩ := h.up s hlt l q howner
      have hs'lt := lt_length_of_getElem? hoffset
      have hs'ne : s' ≠ slot := by
        rintro rfl
        rw [hoffset] at hempty
        exact hne (some.inj hempty)
      refine ⟨s', offset, by rw [hold s' hs'lt, hs'], hl, ?_, hne⟩
      rw [getElem?_linkNode hslot, if_neg hs'ne, if_pos hs'lt, hoffset]
    · rw [hnew s hlt, Prod.mk.injEq] at howner
      obtain ⟨hl, rfl⟩ := howner
      have hll : level = l := by omega
      subst hll
      refine ⟨slot, entries.length, ?_, hlevel, ?_, by omega⟩
      · rw [hold slot hslot, hown, Prod.mk.injEq]
        exact ⟨rfl, by omega⟩
      · rw [getElem?_linkNode hslot, if_pos rfl]
  · intro s hs s' hs' heq
    have hchild : ∀ old < entries.length, ∀ fresh < entries.length + 16, ¬ fresh < entries.length →
        ownNode owner entries.length level p old ≠ ownNode owner entries.length level p fresh := by
      intro old hlt fresh hfresh hge
      rw [hold old hlt, hnew fresh hge]
      exact h.no_child hown hempty hlt (by omega)
    by_cases hlt : s < entries.length <;> by_cases hlt' : s' < entries.length
    · rw [hold s hlt, hold s' hlt'] at heq
      exact h.unique s hlt s' hlt' heq
    · exact absurd heq (hchild s hlt s' (by omega) hlt')
    · exact absurd heq.symm (hchild s' hlt' s (by omega) hlt)
    · rw [hnew s hlt, hnew s' hlt', Prod.mk.injEq] at heq
      omega
  · intro s hs bucket howner
    rw [getElem?_linkNode hslot]
    by_cases hlt : s < entries.length
    · rw [hold s hlt] at howner
      have hne : s ≠ slot := by
        rintro rfl
        rw [hown, Prod.mk.injEq] at howner
        omega
      rw [if_neg hne, if_pos hlt, h.leaf s hlt bucket howner]
    · rw [hnew s hlt, Prod.mk.injEq] at howner
      rw [if_neg (by omega), if_neg hlt, if_pos (by omega), h.absent bucket]
      intro old hold' hleaf
      have hlevel' : (3 : ℕ) = level + 1 := by omega
      rw [hlevel'] at hleaf
      exact h.no_child hown hempty hold' (by omega) hleaf
  · intro bucket hno
    refine h.absent bucket fun s hs => ?_
    have := hno s (by omega)
    rwa [hold s hs] at this

/-- One level down: the node below a slot is there afterwards, and no position has changed. -/
theorem sparseChild_spec (h : RadixTree entries owner latest) (hslot : slot < entries.length)
    (hown : owner slot = (level, p)) (hlevel : level < 3) (hroom : entries.length < emptyPosition) :
    ∃ node entries' owner', sparseChild entries slot = some (node, entries') ∧
      RadixTree entries' owner' latest ∧ entries'.length ≤ entries.length + 16 ∧
      ∀ d < 16, node + d < entries'.length ∧ owner' (node + d) = (level + 1, p * 16 + d) := by
  have hget : entries[slot]? = some entries[slot] := getElem?_eq_getElem hslot
  by_cases hempty : entries[slot] = emptyPosition
  · rw [hempty] at hget
    refine ⟨entries.length, _, _, ?_, h.linkNode hown hlevel hget hroom, by simp, ?_⟩
    · simp [sparseChild, hget, appendSparseNode]
    · intro d hd
      refine ⟨by simp; omega, ?_⟩
      rw [ownNode, if_neg (by omega)]
      simp
  · obtain ⟨hfit, hnode⟩ := h.down slot level p _ hown hlevel hget hempty
    refine ⟨entries[slot], entries, owner, ?_, h, by omega, ?_⟩
    · simp [sparseChild, hget, hempty]
    · intro d hd
      exact ⟨by omega, hnode d hd⟩

variable {bucket : ℕ}

/-- A position put in the leaf of a bucket. -/
theorem RadixTree.putLeaf (h : RadixTree entries owner latest) (hslot : slot < entries.length)
    (hown : owner slot = (3, bucket)) (position : ℕ) :
    RadixTree (entries.set slot position) owner (update latest bucket position) := by
  have hother : ∀ s level p, owner s = (level, p) → level < 3 →
      (entries.set slot position)[s]? = entries[s]? := by
    intro s level p hs hlevel
    refine getElem?_set_ne ?_
    rintro rfl
    rw [hown, Prod.mk.injEq] at hs
    omega
  refine ⟨?_, ?_, ?_, ?_, ?_, ?_⟩
  · simpa using h.root
  · intro s level p offset hs hlevel hget hne
    rw [hother s level p hs hlevel] at hget
    simpa using h.down s level p offset hs hlevel hget hne
  · intro s hs level p hchild
    obtain ⟨s', offset, hs', hlevel, hoffset, hne⟩ := h.up s (by simpa using hs) level p hchild
    exact ⟨s', offset, hs', hlevel, by rw [hother s' level _ hs' hlevel, hoffset], hne⟩
  · simpa using h.unique
  · intro s hs b hb
    rw [length_set] at hs
    by_cases heq : s = slot
    · subst heq
      rw [hown, Prod.mk.injEq] at hb
      rw [← hb.2, update_self, getElem?_set_self hslot]
    · have hne : b ≠ bucket := by
        rintro rfl
        exact heq (h.unique s hs slot hslot (by rw [hb, hown]))
      rw [update_of_ne hne, getElem?_set_ne (Ne.symm heq), h.leaf s hs b hb]
  · intro b hno
    rw [length_set] at hno
    have hne : b ≠ bucket := by
      rintro rfl
      exact hno slot hslot hown
    rw [update_of_ne hne, h.absent b hno]

/-- The sparse `replace` is the one of the function; it appends three nodes at most. -/
theorem replace_sparse (h : RadixTree entries owner latest) (hbucket : bucket < 2 ^ 20)
    (position : ℕ) (hroom : entries.length + 48 ≤ emptyPosition) :
    ∃ entries' owner', (MatchTable.sparse entries).replace bucket position =
        some (latest bucket, .sparse entries') ∧
      RadixTree entries' owner' (update latest bucket position) ∧
      entries'.length ≤ entries.length + 48 := by
  obtain ⟨hroot, hown⟩ := h.root (bucket / 4096) (by omega)
  obtain ⟨node₁, entries₁, owner₁, hchild₁, h₁, hlen₁, hnode₁⟩ :=
    sparseChild_spec h hroot hown (by omega) (by omega)
  obtain ⟨hslot₁, hown₁⟩ := hnode₁ (bucket / 256 % 16) (by omega)
  obtain ⟨node₂, entries₂, owner₂, hchild₂, h₂, hlen₂, hnode₂⟩ :=
    sparseChild_spec h₁ hslot₁ hown₁ (by omega) (by omega)
  obtain ⟨hslot₂, hown₂⟩ := hnode₂ (bucket / 16 % 16) (by omega)
  obtain ⟨node₃, entries₃, owner₃, hchild₃, h₃, hlen₃, hnode₃⟩ :=
    sparseChild_spec h₂ hslot₂ hown₂ (by omega) (by omega)
  obtain ⟨hslot₃, hown₃⟩ := hnode₃ (bucket % 16) (by omega)
  -- The digits of the four levels are those of the bucket.
  have hdigits : ((bucket / 4096 * 16 + bucket / 256 % 16) * 16 + bucket / 16 % 16) * 16 +
      bucket % 16 = bucket := by omega
  rw [hdigits] at hown₃
  have hleaf : entries₃[node₃ + bucket % 16]? = some (latest bucket) := h₃.leaf _ hslot₃ _ hown₃
  refine ⟨_, owner₃, ?_, h₃.putLeaf hslot₃ hown₃ position, by simp; omega⟩
  simp [MatchTable.replace, hchild₁, hchild₂, hchild₃, hleaf]

/-! ## Both layouts -/

/-- The table represents `latest` on `entries` buckets and has room for `budget` more positions. -/
def Represents (entries budget : ℕ) : MatchTable → Latest → Prop
  | .dense positions, latest => ∀ bucket < entries, positions[bucket]? = some (latest bucket)
  | .sparse nodes, latest =>
    nodes.length + 48 * budget ≤ emptyPosition ∧ ∃ owner, RadixTree nodes owner latest

variable {budget : ℕ}

theorem Represents.mono {entries budget' : ℕ} {table : MatchTable}
    (h : Represents entries budget table latest) (hle : budget' ≤ budget) :
    Represents entries budget' table latest := by
  cases table with
  | dense positions => exact h
  | sparse nodes => exact ⟨by have := h.1; omega, h.2⟩

theorem newDense_represents (entries budget : ℕ) :
    Represents entries budget (.newDense entries) .new := by
  intro bucket hbucket
  simp [Latest.new, hbucket]

theorem newSparse_represents (entries : ℕ) (h : 256 + 48 * budget ≤ emptyPosition) :
    Represents entries budget .newSparse .new := by
  have hlength : (replicate 256 emptyPosition).length = 256 := length_replicate
  refine ⟨by rwa [hlength], fun s => (0, s), ?_⟩
  refine ⟨?_, ?_, ?_, ?_, ?_, ?_⟩
  · intro i hi
    exact ⟨by rwa [hlength], rfl⟩
  · intro s level p offset _ _ hget hne
    exact absurd (eq_of_mem_replicate (mem_of_getElem? hget)) hne
  · intro s _ level p howner
    simp at howner
  · intro s _ s' _ heq
    simpa using heq
  · intro s _ bucket howner
    simp at howner
  · intro bucket _
    rfl

theorem replace_represents {entries : ℕ} {table : MatchTable}
    (h : Represents entries (budget + 1) table latest) (hbucket : bucket < entries)
    (hentries : entries ≤ 2 ^ 20) (position : ℕ) :
    ∃ table', table.replace bucket position = some (latest bucket, table') ∧
      Represents entries budget table' (update latest bucket position) := by
  cases table with
  | dense positions =>
    have hget : positions[bucket]? = some (latest bucket) := h bucket hbucket
    refine ⟨_, by simp [MatchTable.replace, hget]; rfl, ?_⟩
    intro b hb
    by_cases heq : b = bucket
    · subst heq
      rw [update_self, getElem?_set_self (lt_length_of_getElem? hget)]
    · rw [update_of_ne heq, getElem?_set_ne (Ne.symm heq)]
      exact h b hb
  | sparse nodes =>
    obtain ⟨hroom, owner, htree⟩ := h
    obtain ⟨nodes', owner', hreplace, htree', hlen⟩ :=
      replace_sparse htree (Nat.lt_of_lt_of_le hbucket hentries) position (by omega)
    refine ⟨.sparse nodes', hreplace, ?_⟩
    exact ⟨by omega, owner', htree'⟩

/-! ## The loop over either layout -/

/-- A hash stays below the power of two it is taken for. -/
theorem hashBucket_lt {input : List UInt8} {cursor entries : ℕ} (hpow : entries = 2 ^ entries.log2)
    (hle : entries ≤ 2 ^ 20)
    (h : hashBucket input cursor entries = some bucket) : bucket < entries := by
  have hlog : entries.log2 ≤ 20 := by
    rw [hpow] at hle
    exact (Nat.pow_le_pow_iff_right (by omega)).mp hle
  have hsplit : (2 : ℕ) ^ 32 = 2 ^ (32 - entries.log2) * 2 ^ entries.log2 := by
    rw [← Nat.pow_add]
    congr 1
    omega
  unfold hashBucket at h
  split at h
  · rw [some.injEq] at h
    rw [← h]
    nth_rewrite 2 [hpow]
    refine Nat.div_lt_of_lt_mul ?_
    rw [← hsplit]
    exact Nat.mod_lt _ (by omega)
  · cases h

theorem compressLoop_latest (input : List UInt8) (profile : CodecProfile) (fuel : ℕ) :
    ∀ (cursor literalStart : ℕ) (output : List UInt8) (table : MatchTable) (latest : Latest),
      Represents profile.hashTableEntries (input.length - 3 - cursor) table latest →
      compressLoop MatchTable.replace input profile.windowSize profile.hashTableEntries fuel cursor
          literalStart output table =
        compressLoop Latest.replace input profile.windowSize profile.hashTableEntries fuel cursor
          literalStart output latest := by
  induction fuel with
  | zero => intros; rfl
  | succ fuel ih =>
    intro cursor literalStart output table latest h
    rw [compressLoop, compressLoop]
    by_cases hpast : input.length < cursor
    · rw [if_pos hpast, if_pos hpast]
    rw [if_neg hpast, if_neg hpast]
    by_cases hmore : 4 ≤ input.length - cursor
    · rw [if_pos hmore, if_pos hmore]
      cases hbucket : hashBucket input cursor profile.hashTableEntries with
      | none => rfl
      | some bucket =>
        have hlt := hashBucket_lt profile.entries_pow profile.entries_le.2 hbucket
        have hbudget : input.length - 3 - cursor = input.length - 3 - (cursor + 1) + 1 := by omega
        rw [hbudget] at h
        obtain ⟨table', hreplace, h'⟩ :=
          replace_represents h hlt profile.entries_le.2 cursor
        simp only [bind_eq_bind, bind_some, hreplace, Latest.replace]
        cases candidateMatchLength input cursor (latest bucket) profile.windowSize with
        | none => rfl
        | some matchLength =>
          simp only [bind_some]
          by_cases hmatch : 4 ≤ matchLength
          · rw [if_pos hmatch, if_pos hmatch]
            cases slice input literalStart cursor with
            | none => rfl
            | some literals => exact ih _ _ _ _ _ (h'.mono (by omega))
          · rw [if_neg hmatch, if_neg hmatch]
            exact ih _ _ _ _ _ h'
    · rw [if_neg hmore, if_neg hmore]

end FrankenGraph.Codec

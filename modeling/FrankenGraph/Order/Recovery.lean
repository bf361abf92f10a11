import FrankenGraph.Order.RefineStep

/-!
# Recoverable states

The checks of `Raft::recover` (`crates/fgdb-order/src/lib.rs` L731-788) as one predicate on
persistent states, and the changes a step makes to a state that keep them.

Results:
* `recover_ok_iff`: `recover` succeeds exactly on the recoverable states.
* `Recoverable.enter`, `castVote`, `commit`, `extend`, `append`, `cut`, `restart`: each kind of
  change keeps the state recoverable.
-/

namespace FrankenGraph.Order

open List Option PersistentState

variable {C : Type}

/-! ## Positions -/

namespace PersistentState

variable {st : PersistentState C}

theorem termAt_le {i t : ℕ} (h : st.termAt i = some t) : st.baseIndex ≤ i ∧ i ≤ st.lastIndex := by
  unfold termAt entryAt at h
  unfold lastIndex
  split_ifs at h with hbase hlow
  · omega
  · simp at h
  · obtain ⟨e, he, -⟩ := Option.map_eq_some_iff.mp h
    have := (List.getElem?_eq_some_iff.mp he).1
    omega

theorem exists_termAt {i : ℕ} (hbase : st.baseIndex ≤ i) (hlast : i ≤ st.lastIndex) :
    ∃ t, st.termAt i = some t := by
  unfold lastIndex at hlast
  unfold termAt entryAt
  split_ifs with heq hlow
  · exact ⟨_, rfl⟩
  · omega
  · have hlt : i - st.baseIndex - 1 < st.entries.length := by omega
    rw [getElem?_eq_getElem hlt]
    exact ⟨_, rfl⟩

theorem entryAt_above (p : ℕ) : st.entryAt (st.baseIndex + p + 1) = st.entries[p]? := by
  unfold entryAt
  rw [if_neg (by omega)]
  congr 1
  omega

end PersistentState

/-! ## Ascending terms -/

theorem termsAscend_iff {bound : ℕ} (es : List (Entry C)) : ∀ previous,
    Raft.termsAscend bound previous es = true ↔
      (∀ t ∈ es.map Entry.term, t ≠ 0 ∧ previous ≤ t ∧ t ≤ bound) ∧
        (es.map Entry.term).Pairwise (· ≤ ·) := by
  induction es with
  | nil => intro previous; simp [Raft.termsAscend]
  | cons e rest ih =>
    intro previous
    rw [Raft.termsAscend, Bool.and_eq_true, decide_eq_true_eq, ih, map_cons,
      pairwise_cons, forall_mem_cons]
    constructor
    · rintro ⟨⟨hzero, hprev, hbound⟩, hrest, hpairs⟩
      refine ⟨⟨⟨hzero, hprev, hbound⟩, fun t ht => ?_⟩, fun t ht => (hrest t ht).2.1, hpairs⟩
      exact ⟨(hrest t ht).1, hprev.trans (hrest t ht).2.1, (hrest t ht).2.2⟩
    · rintro ⟨⟨hhead, hall⟩, hle, hpairs⟩
      exact ⟨hhead, fun t ht => ⟨(hall t ht).1, hle t ht, (hall t ht).2.2⟩, hpairs⟩

/-! ## The predicate -/

/-- What `recover` checks. -/
structure Recoverable (id : MemberId) (limits : Limits) (st : PersistentState C) : Prop where
  limits_ok : limits.maxLogEntries ≠ 0 ∧ limits.maxAppendEntries ≠ 0 ∧
    limits.maxAppendEntries ≤ limits.maxLogEntries
  member : st.configuration.contains id = true
  last_lt : st.lastIndex < u64Max
  length_le : st.entries.length ≤ limits.maxLogEntries
  base_le : st.baseIndex ≤ st.commitIndex
  commit_le : st.commitIndex ≤ st.lastIndex
  baseTerm_le : st.baseTerm ≤ st.term
  snapshot : ∀ cut, st.snapshot = some cut → cut.domain = st.configuration.domain ∧
    cut.configuration = st.configuration.identity
  unvoted : st.term = 0 → st.votedFor = none
  voter : ∀ member, st.votedFor = some member → st.configuration.voters.contains member = true
  positive : ∀ t ∈ st.entries.map Entry.term, t ≠ 0 ∧ st.baseTerm ≤ t ∧ t ≤ st.term
  ascending : (st.entries.map Entry.term).Pairwise (· ≤ ·)

theorem recover_ok_iff {id : MemberId} {limits : Limits} {st : PersistentState C}
    (incarnation : ℕ) :
    (∃ r, Raft.recover id st limits incarnation = .ok r) ↔ Recoverable id limits st := by
  unfold Raft.recover
  simp only [refuse_bind_eq_ok, decide_eq_false_iff_not, Bool.not_eq_false', not_or, not_and,
    Nat.not_lt, Nat.not_le]
  constructor
  · rintro ⟨r, ⟨hlog, happend, hlimits⟩, hmember, hlast, ⟨hlength, hbase, hcommit, hterm, hcut,
      hunvoted, hvoter⟩, hterms, -⟩
    rw [termsAscend_iff] at hterms
    refine ⟨⟨hlog, happend, hlimits⟩, hmember, hlast, hlength, hbase, hcommit, hterm, ?_, ?_, ?_,
      hterms.1, hterms.2⟩
    · intro cut hsome
      rw [hsome] at hcut
      simpa using hcut
    · intro hzero
      simpa using hunvoted hzero
    · intro member hsome
      rw [hsome] at hvoter
      simpa using hvoter
  · intro h
    refine ⟨_, h.limits_ok, h.member, h.last_lt, ⟨h.length_le, h.base_le, h.commit_le,
      h.baseTerm_le, ?_, ?_, ?_⟩, (termsAscend_iff _ _).mpr ⟨h.positive, h.ascending⟩, rfl⟩
    · cases hcut : st.snapshot with
      | none => simp
      | some cut => simp [h.snapshot cut hcut]
    · intro hzero
      simp [h.unvoted hzero]
    · cases hvote : st.votedFor with
      | none => simp
      | some member => simpa using h.voter member hvote

namespace Recoverable

variable {id : MemberId} {limits : Limits} {st : PersistentState C}

variable (h : Recoverable id limits st)
include h

theorem termAt_bounds {i t : ℕ} (ht : st.termAt i = some t) : st.baseTerm ≤ t ∧ t ≤ st.term := by
  unfold termAt entryAt at ht
  split_ifs at ht with hbase hlow
  · cases ht
    exact ⟨le_rfl, h.baseTerm_le⟩
  · simp at ht
  · obtain ⟨e, he, rfl⟩ := map_eq_some_iff.mp ht
    exact (h.positive _ (mem_map_of_mem (mem_of_getElem? he))).2

/-- A later term begins without a vote. -/
theorem enter {term : ℕ} (hterm : st.term ≤ term) :
    Recoverable id limits { st with term, votedFor := none } :=
  { h with
    baseTerm_le := h.baseTerm_le.trans hterm
    unvoted := fun _ => rfl
    voter := fun member hsome => absurd hsome.symm (some_ne_none member)
    positive := fun t ht => ⟨(h.positive t ht).1, (h.positive t ht).2.1,
      (h.positive t ht).2.2.trans hterm⟩ }

theorem castVote {member : MemberId} (hterm : st.term ≠ 0)
    (hvoter : st.configuration.voters.contains member = true) :
    Recoverable id limits { st with votedFor := some member } :=
  { h with
    unvoted := fun hzero => absurd hzero hterm
    voter := fun _ hsome => some.inj hsome ▸ hvoter }

theorem commit {n : ℕ} (hle : st.commitIndex ≤ n)
    (hlast : n ≤ st.lastIndex) : Recoverable id limits { st with commitIndex := n } :=
  { h with base_le := h.base_le.trans hle, commit_le := hlast }

variable {es : List (Entry C)}

/-- The retained log gives way to one with ascending terms that reaches the commit index. -/
theorem replace (hlast : st.baseIndex + es.length < u64Max)
    (hlength : es.length ≤ limits.maxLogEntries)
    (hcommit : st.commitIndex ≤ st.baseIndex + es.length)
    (hpositive : ∀ t ∈ es.map Entry.term, t ≠ 0 ∧ st.baseTerm ≤ t ∧ t ≤ st.term)
    (hascending : (es.map Entry.term).Pairwise (· ≤ ·)) :
    Recoverable id limits { st with entries := es } :=
  { h with
    last_lt := hlast
    length_le := hlength
    commit_le := hcommit
    positive := hpositive
    ascending := hascending }

/-- A leader appends entries of its own term. -/
theorem extend (hterm : st.term ≠ 0)
    (hes : ∀ e ∈ es, e.term = st.term) (hlast : st.lastIndex + es.length < u64Max)
    (hlength : st.entries.length + es.length ≤ limits.maxLogEntries) :
    Recoverable id limits { st with entries := st.entries ++ es } := by
  have hown : ∀ t ∈ es.map Entry.term, t = st.term := by
    intro t ht
    obtain ⟨e, he, rfl⟩ := mem_map.mp ht
    exact hes e he
  unfold lastIndex at hlast
  have hcommit := h.commit_le
  unfold lastIndex at hcommit
  refine h.replace ?_ ?_ ?_ ?_ ?_
  · rw [length_append]
    omega
  · rw [length_append]
    exact hlength
  · rw [length_append]
    omega
  · intro t ht
    rw [map_append, mem_append] at ht
    rcases ht with ht | ht
    · exact h.positive t ht
    · rw [hown t ht]
      exact ⟨hterm, h.baseTerm_le, le_rfl⟩
  · rw [map_append, pairwise_append]
    refine ⟨h.ascending, pairwise_of_forall_mem_list fun a ha b hb => ?_, fun a ha b hb => ?_⟩
    · rw [hown a ha, hown b hb]
    · rw [hown b hb]
      exact (h.positive a ha).2.2

/-- The terms before a retained position do not exceed the term there. -/
theorem take_le {p t : ℕ} (ht : st.termAt (st.baseIndex + p) = some t) :
    ∀ a ∈ (st.entries.take p).map Entry.term, a ≤ t := by
  intro a ha
  cases p with
  | zero => simp at ha
  | succ p =>
    unfold termAt at ht
    rw [if_neg (by omega), show st.baseIndex + (p + 1) = st.baseIndex + p + 1 from rfl,
      entryAt_above] at ht
    obtain ⟨e, he, rfl⟩ := map_eq_some_iff.mp ht
    have hpairs := h.ascending.sublist ((take_sublist (p + 1) st.entries).map Entry.term)
    rw [take_add_one, he, map_append, pairwise_append] at hpairs
    rw [take_add_one, he, map_append, mem_append] at ha
    rcases ha with ha | ha
    · exact hpairs.2.2 a ha _ (by simp)
    · simp only [toList_some, map_cons, map_nil, mem_singleton] at ha
      exact ha.le

/-- The entries of an append take the place of those from its position on. -/
theorem append {p previous : ℕ} {log : List (Entry C)}
    (hprevious : st.termAt (st.baseIndex + p) = some previous)
    (hes : Raft.termsAscend st.term previous es = true)
    (hterms : log.map Entry.term = (st.entries.take p ++ es).map Entry.term)
    (hlast : st.baseIndex + (p + es.length) < u64Max)
    (hlength : p + es.length ≤ limits.maxLogEntries)
    (hcommit : st.commitIndex ≤ st.baseIndex + (p + es.length)) :
    Recoverable id limits { st with entries := log } := by
  obtain ⟨hpositive, hascending⟩ := (termsAscend_iff es previous).mp hes
  have hp : p ≤ st.entries.length := by
    have := (termAt_le hprevious).2
    unfold lastIndex at this
    omega
  have hlen : log.length = p + es.length := by
    have := congrArg length hterms
    rwa [length_map, length_map, length_append, length_take, Nat.min_eq_left hp] at this
  have hbefore := h.take_le hprevious
  have hmem : ∀ t ∈ (st.entries.take p).map Entry.term, t ∈ st.entries.map Entry.term :=
    fun t ht => ((take_sublist p st.entries).map Entry.term).subset ht
  have hbase := (h.termAt_bounds hprevious).1
  refine h.replace (by omega) (by omega) (by omega) ?_ ?_
  · rw [hterms]
    intro t ht
    rw [map_append, mem_append] at ht
    rcases ht with ht | ht
    · exact h.positive t (hmem t ht)
    · exact ⟨(hpositive t ht).1, hbase.trans (hpositive t ht).2.1, (hpositive t ht).2.2⟩
  · rw [hterms, map_append, pairwise_append]
    exact ⟨h.ascending.sublist ((take_sublist p st.entries).map Entry.term), hascending,
      fun a ha b hb => (hbefore a ha).trans (hpositive b hb).2.1⟩

/-- The log above a cut that it holds becomes the retained log. -/
theorem cut {snapshot : SnapshotCut}
    (hbase : st.baseIndex ≤ snapshot.index) (hterm : st.termAt snapshot.index = some snapshot.term)
    (hdomain : snapshot.domain = st.configuration.domain)
    (hconfiguration : snapshot.configuration = st.configuration.identity) {n : ℕ}
    (hcommit : snapshot.index ≤ n) (hlast : n ≤ st.lastIndex) :
    Recoverable id limits { st with
      commitIndex := n
      entries := st.entries.drop (snapshot.index - st.baseIndex)
      snapshot := some snapshot } := by
  have hle := (termAt_le hterm).2
  have hlen : snapshot.index + (st.entries.drop (snapshot.index - st.baseIndex)).length =
      st.lastIndex := by
    rw [length_drop]
    unfold lastIndex at hle ⊢
    omega
  have hsub : ((st.entries.drop (snapshot.index - st.baseIndex)).map Entry.term).Sublist
      (st.entries.map Entry.term) := (drop_sublist _ _).map _
  exact
    { h with
      last_lt := lt_of_eq_of_lt hlen h.last_lt
      length_le := (length_drop ▸ Nat.sub_le _ _ : _ ≤ st.entries.length).trans h.length_le
      base_le := hcommit
      commit_le := hlast.trans hlen.ge
      baseTerm_le := (h.termAt_bounds hterm).2
      snapshot := fun _ hsome => some.inj hsome ▸ ⟨hdomain, hconfiguration⟩
      positive := fun t ht => by
        refine ⟨(h.positive t (hsub.subset ht)).1, ?_, (h.positive t (hsub.subset ht)).2.2⟩
        -- the retained terms follow the term at the cut
        have hterm' : st.termAt (st.baseIndex + (snapshot.index - st.baseIndex)) =
            some snapshot.term := by
          rwa [Nat.add_sub_of_le hbase]
        cases hcount : snapshot.index - st.baseIndex with
        | zero =>
          rw [hcount, Nat.add_zero] at hterm'
          unfold termAt at hterm'
          rw [if_pos rfl] at hterm'
          exact (some.inj hterm').ge.trans (h.positive t (hsub.subset ht)).2.1
        | succ p =>
          rw [hcount] at hterm' ht
          unfold termAt at hterm'
          rw [if_neg (by omega), show st.baseIndex + (p + 1) = st.baseIndex + p + 1 from rfl,
            entryAt_above] at hterm'
          obtain ⟨e, he, heq⟩ := map_eq_some_iff.mp hterm'
          have hpairs := h.ascending
          rw [← take_append_drop (p + 1) st.entries, map_append, pairwise_append] at hpairs
          change snapshot.term ≤ t
          rw [← heq]
          refine hpairs.2.2 _ (mem_map_of_mem ?_) t ht
          rw [take_add_one, he]
          simp
      ascending := h.ascending.sublist hsub }

/-- A cut beyond the log replaces it. -/
theorem restart {snapshot : SnapshotCut}
    (hindex : snapshot.index < u64Max) (hterm : snapshot.term ≤ st.term)
    (hdomain : snapshot.domain = st.configuration.domain)
    (hconfiguration : snapshot.configuration = st.configuration.identity) :
    Recoverable id limits ({ st with
      commitIndex := snapshot.index, entries := [], snapshot := some snapshot } :
        PersistentState C) where
  limits_ok := h.limits_ok
  member := h.member
  last_lt := hindex
  length_le := Nat.zero_le _
  base_le := le_rfl
  commit_le := le_rfl
  baseTerm_le := hterm
  snapshot _ hsome := some.inj hsome ▸ ⟨hdomain, hconfiguration⟩
  unvoted := h.unvoted
  voter := h.voter
  positive t ht := by cases ht
  ascending := List.Pairwise.nil

end Recoverable

end FrankenGraph.Order

import FrankenGraph.Library.Quorum

/-!
# Log replication by elected leaders

The abstract protocol behind a replicated log: members hold a current term and
a log, vote at most once a term, elect leaders by quorum, copy prefixes of the
leader's log and commit what a quorum has copied. A `View` records a run: beside
each member's current term and log it keeps, for every term, who voted for whom
and with which log, who led, the leader's log and what each member acknowledged.
Members, entries and the quorum family are arbitrary.

The invariant `Inv` is stated over prefixes of the leader logs. An index of the
log of leader `t` is `Choosable` while a quorum has acknowledged it or could
still do so; every later leader holds the choosable own-term entries.

Results:
* `Inv.leader_unique`: at most one leader a term.
* `Rooted.agree`: two logs with one term at one index agree up to it.
* `Inv.upToDate_agree`: a log at least as recent as one that holds a choosable
  entry holds it too.
-/

namespace FrankenGraph.Protocol

/-- The parameters of the protocol: which sets of members are quorums, and the
term each log entry carries. -/
structure Rules (M E : Type) where
  IsQuorum : Set M → Prop
  mono : ∀ {A B : Set M}, A ⊆ B → IsQuorum A → IsQuorum B
  inter : ∀ {A B : Set M}, IsQuorum A → IsQuorum B → ∃ m, m ∈ A ∧ m ∈ B
  term : E → ℕ

/-- The record of a run. -/
structure View (M E : Type) where
  /-- The current term of each member. -/
  cur : M → ℕ
  log : M → List E
  /-- The candidate a member voted for in a term, and its log at that moment. -/
  voted : M → ℕ → Option M
  voteLog : M → ℕ → List E
  /-- The log with which a member stood for election in a term. -/
  stood : M → ℕ → Option (List E)
  leader : ℕ → Option M
  leaderLog : ℕ → List E
  /-- How much of the log of the leader of a term a member has acknowledged. -/
  acked : M → ℕ → ℕ
  /-- How much of its log the leader of a term has counted as committed. -/
  commit : ℕ → ℕ

variable {M E : Type} (P : Rules M E)

/-- The view before any action. -/
def View.init : View M E where
  cur _ := 0
  log _ := []
  voted _ _ := none
  voteLog _ _ := []
  stood _ _ := none
  leader _ := none
  leaderLog _ := []
  acked _ _ := 0
  commit _ := 0

/-! ## Logs -/

/-- Two logs hold the same entries at every index up to `i`. -/
def Agree (L K : List E) (i : ℕ) : Prop := L.take (i + 1) = K.take (i + 1)

variable {L K : List E} {i : ℕ}

theorem Agree.symm (h : Agree L K i) : Agree K L i := Eq.symm h

theorem Agree.trans {J : List E} (h : Agree L K i) (h' : Agree K J i) : Agree L J i := Eq.trans h h'

variable {j : ℕ}

theorem take_eq_of_le (h : L.take i = K.take i) (hj : j ≤ i) : L.take j = K.take j := by
  have := congrArg (List.take j) h
  rwa [List.take_take, List.take_take, Nat.min_eq_left hj] at this

theorem Agree.mono (h : Agree L K i) (hj : j ≤ i) : Agree L K j :=
  take_eq_of_le h (Nat.add_le_add_right hj 1)

theorem Agree.getElem? (h : Agree L K i) (hj : j ≤ i) : L[j]? = K[j]? := by
  have := congrArg (·[j]?) h
  simpa [List.getElem?_take, show j < i + 1 by omega] using this

theorem Agree.extend (h : L <+: K) (hi : i < L.length) : Agree L K i := by
  obtain ⟨J, rfl⟩ := h
  unfold Agree
  rw [List.take_append_of_le_length (by omega)]

theorem Agree.take {n : ℕ} (h : Agree L K i) (hn : i < n) : Agree (L.take n) K i := by
  unfold Agree at *
  rw [List.take_take, Nat.min_eq_left (by omega), h]

/-- The term of the last entry, zero for the empty log. -/
def Rules.lastTerm (L : List E) : ℕ := (L.getLast?.map P.term).getD 0

/-- `L` is at least as recent as `K`: by the last term, then by the length. -/
def Rules.UpToDate (L K : List E) : Prop :=
  P.lastTerm K < P.lastTerm L ∨ P.lastTerm K = P.lastTerm L ∧ K.length ≤ L.length

/-- Every entry of `L` closes a prefix of the log of its own term's leader. -/
def Rules.Rooted (v : View M E) (L : List E) : Prop :=
  ∀ i e, L[i]? = some e → Agree L (v.leaderLog (P.term e)) i

/-- Index `i` of the log of leader `t` holds an entry of term `t`. -/
def Rules.Own (v : View M E) (t i : ℕ) : Prop :=
  ∃ e, (v.leaderLog t)[i]? = some e ∧ P.term e = t

/-- A quorum has acknowledged own-term index `i` of leader `t` or still can. -/
def Rules.Choosable (v : View M E) (t i : ℕ) : Prop :=
  P.Own v t i ∧ P.IsQuorum {m | i < v.acked m t ∨ v.cur m ≤ t}

/-- A quorum has acknowledged own-term index `i` of leader `t`. -/
def Rules.Chosen (v : View M E) (t i : ℕ) : Prop :=
  P.Own v t i ∧ P.IsQuorum {m | i < v.acked m t}

/-- The first `n` entries of `L` are a prefix that the leader of a term up to `b`
has counted. -/
def Committed (v : View M E) (b : ℕ) (L : List E) (n : ℕ) : Prop :=
  n = 0 ∨ ∃ t ≤ b, n ≤ v.commit t ∧ n ≤ L.length ∧ L.take n = (v.leaderLog t).take n

/-! ## The invariant -/

/-- What every run keeps. -/
structure Rules.Inv (v : View M E) : Prop where
  voted_le : ∀ {m t c}, v.voted m t = some c → t ≤ v.cur m
  voted_stood : ∀ {m t c}, v.voted m t = some c →
    ∃ L, v.stood c t = some L ∧ P.UpToDate L (v.voteLog m t)
  voteLog_rooted : ∀ {m t c}, v.voted m t = some c → P.Rooted v (v.voteLog m t)
  stood_le : ∀ {c t L}, v.stood c t = some L → t ≤ v.cur c
  stood_lt : ∀ {c t L}, v.stood c t = some L → ∀ e ∈ L, P.term e < t
  stood_rooted : ∀ {c t L}, v.stood c t = some L → P.Rooted v L
  log_rooted : ∀ m, P.Rooted v (v.log m)
  log_le : ∀ m, ∀ e ∈ v.log m, P.term e ≤ v.cur m
  leader_votes : ∀ {t c}, v.leader t = some c → P.IsQuorum {m | v.voted m t = some c}
  leader_stood : ∀ {t c}, v.leader t = some c → ∃ L own, v.stood c t = some L ∧
    v.leaderLog t = L ++ own ∧ ∀ e ∈ own, P.term e = t
  leader_log : ∀ {t c}, v.leader t = some c → v.cur c = t → v.log c = v.leaderLog t
  leaderless : ∀ {t}, v.leader t = none → v.leaderLog t = []
  leaderLog_rooted : ∀ t, P.Rooted v (v.leaderLog t)
  acked_le : ∀ m t, v.acked m t ≤ (v.leaderLog t).length
  acked_cur : ∀ {m t}, 0 < v.acked m t → t ≤ v.cur m
  log_acked : ∀ {m t i}, i < v.acked m t → P.Choosable v t i →
    Agree (v.log m) (v.leaderLog t) i
  voteLog_acked : ∀ {m t' c t i}, v.voted m t' = some c → t < t' → i < v.acked m t →
    P.Choosable v t i → Agree (v.voteLog m t') (v.leaderLog t) i
  complete : ∀ {t t' c i}, t < t' → v.leader t' = some c → P.Choosable v t i →
    Agree (v.leaderLog t') (v.leaderLog t) i
  commit_chosen : ∀ {t}, 0 < v.commit t → P.Chosen v t (v.commit t - 1)

variable {P} {v : View M E}

theorem init_inv : P.Inv (View.init : View M E) where
  voted_le := by intro m t c h; cases h
  voted_stood := by intro m t c h; cases h
  voteLog_rooted := by intro m t c h; cases h
  stood_le := by intro c t L h; cases h
  stood_lt := by intro c t L h; cases h
  stood_rooted := by intro c t L h; cases h
  log_rooted := by intro m i e h; simp [View.init] at h
  log_le := by intro m e h; simp [View.init] at h
  leader_votes := by intro t c h; cases h
  leader_stood := by intro t c h; cases h
  leader_log := by intro t c h; cases h
  leaderless := by intro t _; rfl
  leaderLog_rooted := by intro t i e h; simp [View.init] at h
  acked_le := by intro m t; simp [View.init]
  acked_cur := by intro m t h; simp [View.init] at h
  log_acked := by intro m t i h; simp [View.init] at h
  voteLog_acked := by intro m t' c t i h; cases h
  complete := by intro t t' c i _ h; cases h
  commit_chosen := by intro t h; simp [View.init] at h

variable {t : ℕ}

theorem Rules.Chosen.choosable (h : P.Chosen v t i) : P.Choosable v t i :=
  ⟨h.1, P.mono (fun _ hm => Or.inl hm) h.2⟩

/-! ## Monotonicity of the log predicates -/

theorem Agree.lt (h : Agree L K i) (hi : i < L.length) : i < K.length := by
  have := congrArg List.length h
  simp only [List.length_take] at this
  omega

variable {v' : View M E}

theorem Rules.Rooted.extend (hpre : ∀ t, v.leaderLog t <+: v'.leaderLog t)
    (h : P.Rooted v L) : P.Rooted v' L := by
  intro i e he
  have hag := h i e he
  have hi := hag.lt (List.getElem?_eq_some_iff.mp he).1
  exact hag.trans (Agree.extend (hpre _) hi)

section

variable (hpre : v.leaderLog t <+: v'.leaderLog t)
include hpre

theorem Rules.Own.extend (h : P.Own v t i) : P.Own v' t i := by
  obtain ⟨e, he, hte⟩ := h
  refine ⟨e, ?_, hte⟩
  rw [← (Agree.extend hpre (List.getElem?_eq_some_iff.mp he).1).getElem? le_rfl, he]

theorem Rules.Own.restrict (hi : i < (v.leaderLog t).length) (h : P.Own v' t i) : P.Own v t i := by
  obtain ⟨e, he, hte⟩ := h
  exact ⟨e, by rw [(Agree.extend hpre hi).getElem? le_rfl, he], hte⟩

/-- An old index that is choosable now was choosable before. -/
theorem Rules.Choosable.anti (hi : i < (v.leaderLog t).length)
    (hsub : ∀ m, i < v'.acked m t ∨ v'.cur m ≤ t → i < v.acked m t ∨ v.cur m ≤ t)
    (h : P.Choosable v' t i) : P.Choosable v t i :=
  ⟨h.1.restrict hpre hi, P.mono hsub h.2⟩

theorem Rules.Chosen.extend
    (hack : ∀ m, v.acked m t ≤ v'.acked m t) (h : P.Chosen v t i) : P.Chosen v' t i :=
  ⟨h.1.extend hpre, P.mono (fun m (hm : i < v.acked m t) => hm.trans_le (hack m)) h.2⟩

end

/-! ## Consequences of the invariant -/

theorem Rules.Own.lt (h : P.Own v t i) : i < (v.leaderLog t).length := by
  obtain ⟨e, he, _⟩ := h
  exact (List.getElem?_eq_some_iff.mp he).1

/-- **One leader a term.** -/
theorem Rules.Inv.leader_unique (h : P.Inv v) {c m : M} (hc : v.leader t = some c)
    (hq : P.IsQuorum {x | v.voted x t = some m}) : m = c := by
  obtain ⟨x, hx, hx'⟩ := P.inter hq (h.leader_votes hc)
  change v.voted x t = some m at hx
  change v.voted x t = some c at hx'
  rw [hx] at hx'
  exact Option.some.inj hx'

theorem Rules.Inv.leaderLog_le (h : P.Inv v) (t : ℕ) : ∀ e ∈ v.leaderLog t, P.term e ≤ t := by
  intro e he
  cases hl : v.leader t with
  | none => simp [h.leaderless hl] at he
  | some c =>
    obtain ⟨L, own, hst, hlog, hown⟩ := h.leader_stood hl
    rw [hlog, List.mem_append] at he
    rcases he with he | he
    · exact (h.stood_lt hst e he).le
    · exact (hown e he).le

theorem Rules.Inv.rooted_sorted (h : P.Inv v) (hL : P.Rooted v L) {e f : E} (hij : i ≤ j)
    (he : L[i]? = some e) (hf : L[j]? = some f) :
    P.term e ≤ P.term f := by
  have hag := (hL j f hf).getElem? hij
  rw [he] at hag
  exact h.leaderLog_le _ e (List.mem_of_getElem? hag.symm)

theorem Rules.Inv.leader_of_mem (h : P.Inv v) (hi : i < (v.leaderLog t).length) :
    ∃ c, v.leader t = some c := by
  cases hl : v.leader t with
  | none => simp [h.leaderless hl] at hi
  | some c => exact ⟨c, rfl⟩

/-- **Log matching.** Rooted logs with entries of one term at index `i` agree
up to `i`. -/
theorem Rules.Rooted.agree (hL : P.Rooted v L) (hK : P.Rooted v K) {e f : E} (he : L[i]? = some e)
    (hf : K[i]? = some f) (ht : P.term e = P.term f) :
    Agree L K i := by
  have h1 := hL i e he
  have h2 := hK i f hf
  rw [← ht] at h2
  exact h1.trans h2.symm

theorem Rules.Rooted.take (hL : P.Rooted v L) (n : ℕ) : P.Rooted v (L.take n) := by
  intro i e he
  rw [List.getElem?_take] at he
  split_ifs at he with hi
  exact (hL i e he).take hi

theorem lastTerm_of_getLast (hL : L ≠ []) :
    ∃ e, L[L.length - 1]? = some e ∧ P.lastTerm L = P.term e := by
  refine ⟨L.getLast hL, ?_, ?_⟩
  · rw [← List.getLast?_eq_getElem?, List.getLast?_eq_some_getLast hL]
  · unfold Rules.lastTerm
    rw [List.getLast?_eq_some_getLast hL]; rfl

/-- A log at least as recent as one that holds the choosable entry `i` of leader
`t` holds it too, when the leaders of the terms in between do. -/
theorem Rules.Inv.upToDate_agree (h : P.Inv v) (hL : P.Rooted v L) (hK : P.Rooted v K)
    (hup : P.UpToDate L K) (hown : P.Own v t i) (hag : Agree K (v.leaderLog t) i)
    (hlater : ∀ u, t < u → u = P.lastTerm L → Agree (v.leaderLog u) (v.leaderLog t) i) :
    Agree L (v.leaderLog t) i := by
  obtain ⟨e, he, hte⟩ := hown
  have hKi : K[i]? = some e := by rw [hag.getElem? le_rfl, he]
  have hiK : i < K.length := (List.getElem?_eq_some_iff.mp hKi).1
  obtain ⟨f, hf, hlf⟩ := lastTerm_of_getLast (P := P) (L := K) (by rintro rfl; simp at hiK)
  have htf : t ≤ P.term f := by
    rw [← hte]; exact h.rooted_sorted hK (by omega) hKi hf
  have hLne : L ≠ [] := by
    rintro rfl
    rcases hup with hlt | ⟨_, hle⟩
    · simp [Rules.lastTerm] at hlt
    · simp at hle; subst hle; simp at hiK
  obtain ⟨g, hg, hlg⟩ := lastTerm_of_getLast (P := P) hLne
  have hLlen : 0 < L.length := List.length_pos_iff.mpr hLne
  rcases hup with hlt | ⟨heq, hle⟩
  · -- a later last term: that leader's log holds the entry, and `L` reaches past it
    have hu : t < P.term g := by omega
    have hU := hlater (P.term g) hu hlg.symm
    have hroot := hL _ g hg
    have hgU : (v.leaderLog (P.term g))[L.length - 1]? = some g := by
      rw [← hroot.getElem? le_rfl, hg]
    have heU : (v.leaderLog (P.term g))[i]? = some e := by rw [hU.getElem? le_rfl, he]
    have hlt' : i < L.length - 1 := by
      by_contra hnot
      have := h.rooted_sorted (h.leaderLog_rooted _) (i := L.length - 1) (j := i) (by omega) hgU heU
      omega
    exact (hroot.mono hlt'.le).trans hU
  · -- the same last term: the longer of two prefixes of one leader's log
    have hrootK := hK _ f hf
    have hrootL := hL _ g hg
    have hfg : P.term f = P.term g := by omega
    rw [hfg] at hrootK
    exact ((hrootL.mono (j := i) (by omega)).trans (hrootK.mono (j := i) (by omega)).symm).trans hag

end FrankenGraph.Protocol

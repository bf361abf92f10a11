import FrankenGraph.Library.Protocol

/-!
# The actions of the replicated-log protocol

Each action of one member as a function on views, with its guard in `Act`, and
the proof that it keeps the invariant `Inv`. `Ext` says what an action of `m`
leaves alone: the past of every member and the present of every other one.

Results:
* `Inv.act`: every action keeps the invariant.
* `Act.ext`: every action of `m` extends the view at `m` only.
* `Inv.chosen_complete`: later leaders hold every chosen entry.
* `Inv.committed_agree`: any two committed prefixes agree.
* `View.Held.act`: logs keep what was acknowledged in the current term.
-/

namespace FrankenGraph.Protocol

open List Option Function

variable {M E : Type} [DecidableEq M] {P : Rules M E} {v v' : View M E}

/-! ## Actions -/

/-- `m` enters term `t`. -/
def View.bump (v : View M E) (m : M) (t : ℕ) : View M E :=
  { v with cur := Function.update v.cur m t }

/-- `c` stands for election in its current term. -/
def View.stand (v : View M E) (c : M) : View M E :=
  { v with stood := fun x t => if x = c ∧ t = v.cur c then some (v.log c) else v.stood x t }

/-- `m` votes for `c` in its current term. -/
def View.vote (v : View M E) (m c : M) : View M E :=
  { v with
    voted := fun x t => if x = m ∧ t = v.cur m then some c else v.voted x t
    voteLog := fun x t => if x = m ∧ t = v.cur m then v.log m else v.voteLog x t }

/-- `c` becomes the leader of its current term. -/
def View.elect (v : View M E) (c : M) : View M E :=
  { v with
    leader := Function.update v.leader (v.cur c) (some c)
    leaderLog := Function.update v.leaderLog (v.cur c) (v.log c)
    acked := fun x t => if x = c ∧ t = v.cur c then (v.log c).length else v.acked x t }

/-- The leader `c` appends `es` to its log. -/
def View.propose (v : View M E) (c : M) (es : List E) : View M E :=
  { v with
    log := Function.update v.log c (v.log c ++ es)
    leaderLog := Function.update v.leaderLog (v.cur c) (v.log c ++ es)
    acked := fun x t =>
      if x = c ∧ t = v.cur c then (v.log c ++ es).length else v.acked x t }

open Classical in
/-- The log `L` after taking over the first `n` entries of `K`: unchanged when it
holds them, else cut down to them. -/
noncomputable def overlay (L K : List E) (n : ℕ) : List E :=
  if L.take n = K.take n then L else K.take n

/-- `m` takes over the first `n` entries of its leader's log. -/
noncomputable def View.accept (v : View M E) (m : M) (n : ℕ) : View M E :=
  { v with
    log := Function.update v.log m (overlay (v.log m) (v.leaderLog (v.cur m)) n)
    acked := fun x t =>
      if x = m ∧ t = v.cur m then max (v.acked m t) n else v.acked x t }

/-- The leader `c` counts the first `n` entries of its log as committed. -/
def View.count (v : View M E) (c : M) (n : ℕ) : View M E :=
  { v with commit := Function.update v.commit (v.cur c) n }

/-- The actions of member `m`, with their guards. -/
inductive Act (P : Rules M E) (m : M) (v : View M E) : View M E → Prop
  | bump {t} (hlt : v.cur m < t) : Act P m v (v.bump m t)
  | stand (hnew : v.stood m (v.cur m) = none) (hlt : ∀ e ∈ v.log m, P.term e < v.cur m) :
    Act P m v (v.stand m)
  | vote {c L} (hnew : v.voted m (v.cur m) = none) (hst : v.stood c (v.cur m) = some L)
    (hup : P.UpToDate L (v.log m)) : Act P m v (v.vote m c)
  | elect (hnew : v.leader (v.cur m) = none) (hst : v.stood m (v.cur m) = some (v.log m))
    (hq : P.IsQuorum {x | v.voted x (v.cur m) = some m}) : Act P m v (v.elect m)
  | propose {es} (hl : v.leader (v.cur m) = some m) (hes : ∀ e ∈ es, P.term e = v.cur m) :
    Act P m v (v.propose m es)
  | accept {c n} (hl : v.leader (v.cur m) = some c) (hn : n ≤ (v.leaderLog (v.cur m)).length) :
    Act P m v (v.accept m n)
  | count {n} (hl : v.leader (v.cur m) = some m) (hn : v.commit (v.cur m) ≤ n) (hpos : 0 < n)
    (hch : P.Chosen v (v.cur m) (n - 1)) : Act P m v (v.count m n)

/-! ## What an action leaves alone -/

/-- `v'` extends `v`: the past stays, and terms, logs of leaders, acknowledgements
and commits only grow. -/
structure Le (v v' : View M E) : Prop where
  cur : ∀ x, v.cur x ≤ v'.cur x
  voted : ∀ {x t c}, v.voted x t = some c → v'.voted x t = some c
  stood : ∀ {x t L}, v.stood x t = some L → v'.stood x t = some L
  leader : ∀ {t c}, v.leader t = some c → v'.leader t = some c
  leaderLog : ∀ t, v.leaderLog t <+: v'.leaderLog t
  acked : ∀ x t, v.acked x t ≤ v'.acked x t
  commit : ∀ t, v.commit t ≤ v'.commit t

/-- `v'` extends `v` by actions of `m` alone. -/
structure Ext (m : M) (v v' : View M E) : Prop extends Le v v' where
  cur_ne : ∀ {x}, x ≠ m → v'.cur x = v.cur x
  log_ne : ∀ {x}, x ≠ m → v'.log x = v.log x
  voted_ne : ∀ {x t}, x ≠ m → v'.voted x t = v.voted x t
  stood_ne : ∀ {x t}, x ≠ m → v'.stood x t = v.stood x t
  acked_ne : ∀ {x t}, x ≠ m → v'.acked x t = v.acked x t
  leader_ne : ∀ {t x}, x ≠ m → v'.leader t = some x → v.leader t = some x
  commit_ne : ∀ {t x}, x ≠ m → v.leader t = some x → v'.commit t = v.commit t

section

omit [DecidableEq M]

theorem Le.refl (v : View M E) : Le v v :=
  ⟨fun _ => le_rfl, id, id, id, fun _ => prefix_rfl, fun _ _ => le_rfl, fun _ => le_rfl⟩

theorem Le.trans {u : View M E} (h : Le u v) (h' : Le v v') : Le u v' where
  cur x := (h.cur x).trans (h'.cur x)
  voted hx := h'.voted (h.voted hx)
  stood hx := h'.stood (h.stood hx)
  leader hx := h'.leader (h.leader hx)
  leaderLog t := (h.leaderLog t).trans (h'.leaderLog t)
  acked x t := (h.acked x t).trans (h'.acked x t)
  commit t := (h.commit t).trans (h'.commit t)

theorem Ext.refl (m : M) (v : View M E) : Ext m v v :=
  { Le.refl v with
    cur_ne := fun _ => rfl
    log_ne := fun _ => rfl
    voted_ne := fun _ => rfl
    stood_ne := fun _ => rfl
    acked_ne := fun _ => rfl
    leader_ne := fun _ => id
    commit_ne := fun _ _ => rfl }

theorem Ext.trans {u : View M E} (h : Ext m u v) (h' : Ext m v v') : Ext m u v' :=
  { h.toLe.trans h'.toLe with
    cur_ne := fun hx => (h'.cur_ne hx).trans (h.cur_ne hx)
    log_ne := fun hx => (h'.log_ne hx).trans (h.log_ne hx)
    voted_ne := fun hx => (h'.voted_ne hx).trans (h.voted_ne hx)
    stood_ne := fun hx => (h'.stood_ne hx).trans (h.stood_ne hx)
    acked_ne := fun hx => (h'.acked_ne hx).trans (h.acked_ne hx)
    leader_ne := fun hx hl => h.leader_ne hx (h'.leader_ne hx hl)
    commit_ne := fun hx hl => (h'.commit_ne hx (h.leader hl)).trans (h.commit_ne hx hl) }

end

variable {m c : M} {t n : ℕ}

theorem Rules.Inv.leaderLog_le_elect (h : P.Inv v) (hnew : v.leader (v.cur c) = none) (t : ℕ) :
    v.leaderLog t <+: (v.elect c).leaderLog t := by
  simp only [View.elect, update_apply]
  split_ifs with ht
  · rw [ht, h.leaderless hnew]; exact nil_prefix
  · exact prefix_rfl

section Propose

variable {es : List E}

theorem leaderLog_propose (t : ℕ) : (v.propose c es).leaderLog t =
    if t = v.cur c then v.log c ++ es else v.leaderLog t := by
  simp only [View.propose, update_apply]

theorem log_propose (m : M) :
    (v.propose c es).log m = if m = c then v.log c ++ es else v.log m := by
  simp only [View.propose, update_apply]

theorem acked_propose (m : M) (t : ℕ) : (v.propose c es).acked m t =
    if m = c ∧ t = v.cur c then (v.log c ++ es).length else v.acked m t := rfl

variable (h : P.Inv v) (hl : v.leader (v.cur c) = some c)
include h hl

theorem Rules.Inv.leaderLog_le_propose (es : List E) (t : ℕ) :
    v.leaderLog t <+: (v.propose c es).leaderLog t := by
  rw [leaderLog_propose]
  split_ifs with ht
  · rw [ht, ← h.leader_log hl rfl]; exact prefix_append _ _
  · exact prefix_rfl

theorem Rules.Inv.acked_le_propose (m : M) (t : ℕ) :
    v.acked m t ≤ (v.propose c es).acked m t := by
  rw [acked_propose]
  split_ifs with ht
  · have := h.acked_le m t
    rw [ht.2, ← h.leader_log hl rfl] at this
    rw [ht.2, length_append]; omega
  · exact le_rfl

end Propose

theorem acked_le_accept (x : M) (t : ℕ) : v.acked x t ≤ (v.accept m n).acked x t := by
  simp only [View.accept]
  split_ifs with hx
  · rw [hx.1]; exact le_max_left _ _
  · exact le_rfl

theorem Act.ext (h : P.Inv v) (a : Act P m v v') : Ext m v v' := by
  cases a with
  | @bump t hlt =>
    exact
      { Ext.refl m v with
        cur := by
          intro x
          simp only [View.bump, update_apply]
          split_ifs with hx
          · rw [hx]; exact hlt.le
          · exact le_rfl
        cur_ne := fun hx => by simp [View.bump, hx] }
  | stand hnew hlt =>
    exact
      { Ext.refl m v with
        stood := by
          intro x t L hst
          simp only [View.stand]
          split_ifs with hx
          · rw [hx.1, hx.2, hnew] at hst; cases hst
          · exact hst
        stood_ne := fun hx => by simp [View.stand, hx] }
  | vote hnew hst hup =>
    exact
      { Ext.refl m v with
        voted := by
          intro x t c hv
          simp only [View.vote]
          split_ifs with hx
          · rw [hx.1, hx.2, hnew] at hv; cases hv
          · exact hv
        voted_ne := fun hx => by simp [View.vote, hx] }
  | elect hnew hst hq =>
    exact
      { Ext.refl m v with
        leader := by
          intro t c hl
          simp only [View.elect, update_apply]
          split_ifs with ht
          · rw [ht, hnew] at hl; cases hl
          · exact hl
        leaderLog := h.leaderLog_le_elect hnew
        acked := by
          intro x t
          simp only [View.elect]
          split_ifs with hx
          · have := h.acked_le x t
            rw [hx.2, h.leaderless hnew] at this
            simp at this
            rw [hx.2, this]; exact Nat.zero_le _
          · exact le_rfl
        acked_ne := fun hx => by simp [View.elect, hx]
        leader_ne := by
          intro t x hx hl
          simp only [View.elect, update_apply] at hl
          split_ifs at hl with ht
          · exact absurd (some.inj hl).symm hx
          · exact hl }
  | @propose es hl hes =>
    exact
      { Ext.refl m v with
        log_ne := fun hx => by simp [View.propose, hx]
        leaderLog := h.leaderLog_le_propose hl es
        acked := h.acked_le_propose hl
        acked_ne := fun hx => by simp [View.propose, hx] }
  | accept hl hn =>
    exact
      { Ext.refl m v with
        log_ne := fun hx => by simp [View.accept, hx]
        acked := acked_le_accept
        acked_ne := fun hx => by simp [View.accept, hx] }
  | count hl hn hpos hch =>
    exact
      { Ext.refl m v with
        commit := by
          intro t
          simp only [View.count, update_apply]
          split_ifs with ht
          · rw [ht]; exact hn
          · exact le_rfl
        commit_ne := by
          intro t x hx hlx
          simp only [View.count, update_apply]
          split_ifs with ht
          · rw [ht, hl] at hlx; exact absurd (some.inj hlx).symm hx
          · rfl }

/-! ## Actions that move no leader log -/

theorem Rules.Inv.bump (h : P.Inv v) (hlt : v.cur m < t) : P.Inv (v.bump m t) := by
  have hcur := (Act.ext h (.bump hlt)).cur
  have hch : ∀ {u i}, P.Choosable (v.bump m t) u i → P.Choosable v u i := by
    intro u i hc
    refine ⟨hc.1, P.mono ?_ hc.2⟩
    intro x hx
    exact hx.imp id fun hle => (hcur x).trans hle
  exact
    { h with
      voted_le := fun hv => (h.voted_le hv).trans (hcur _)
      stood_le := fun hs => (h.stood_le hs).trans (hcur _)
      log_le := fun x e he => (h.log_le x e he).trans (hcur x)
      leader_log := by
        intro u c hl hc
        have hle : u ≤ v.cur c := by
          obtain ⟨L, _, hst, _⟩ := h.leader_stood hl
          exact h.stood_le hst
        have := hcur c
        exact h.leader_log hl (by omega)
      acked_cur := fun ha => (h.acked_cur ha).trans (hcur _)
      log_acked := fun ha hc => h.log_acked ha (hch hc)
      voteLog_acked := fun hv ht ha hc => h.voteLog_acked hv ht ha (hch hc)
      complete := fun ht hl hc => h.complete ht hl (hch hc) }

theorem Rules.Inv.stand (h : P.Inv v) (hnew : v.stood c (v.cur c) = none)
    (hlt : ∀ e ∈ v.log c, P.term e < v.cur c) : P.Inv (v.stand c) := by
  have hext := Act.ext h (.stand hnew hlt)
  -- a standing record is an old one or the new one of `c`
  have hcases : ∀ {x t L}, (v.stand c).stood x t = some L →
      v.stood x t = some L ∨ x = c ∧ t = v.cur c ∧ L = v.log c := by
    intro x t L hst
    simp only [View.stand] at hst
    split_ifs at hst with hx
    · exact Or.inr ⟨hx.1, hx.2, (some.inj hst).symm⟩
    · exact Or.inl hst
  exact
    { h with
      voted_stood := fun hv => by
        obtain ⟨L, hst, hup⟩ := h.voted_stood hv
        exact ⟨L, hext.stood hst, hup⟩
      stood_le := fun hs => by
        rcases hcases hs with hs | ⟨rfl, rfl, _⟩
        · exact h.stood_le hs
        · exact le_rfl
      stood_lt := fun hs => by
        rcases hcases hs with hs | ⟨rfl, rfl, rfl⟩
        · exact h.stood_lt hs
        · exact hlt
      stood_rooted := fun hs => by
        rcases hcases hs with hs | ⟨rfl, rfl, rfl⟩
        · exact h.stood_rooted hs
        · exact h.log_rooted _
      leader_stood := fun hl => by
        obtain ⟨L, own, hst, hrest⟩ := h.leader_stood hl
        exact ⟨L, own, hext.stood hst, hrest⟩ }

theorem Rules.Inv.vote (h : P.Inv v) {m c : M} {L : List E} (hnew : v.voted m (v.cur m) = none)
    (hst : v.stood c (v.cur m) = some L) (hup : P.UpToDate L (v.log m)) :
    P.Inv (v.vote m c) := by
  have hext := Act.ext h (.vote hnew hst hup)
  -- a vote is an old one or the new one of `m`
  have hcases : ∀ {x t b}, (v.vote m c).voted x t = some b →
      v.voted x t = some b ∧ (v.vote m c).voteLog x t = v.voteLog x t ∨
        x = m ∧ t = v.cur m ∧ b = c ∧ (v.vote m c).voteLog x t = v.log m := by
    intro x t b hv
    simp only [View.vote] at hv ⊢
    split_ifs at hv ⊢ with hx
    · exact Or.inr ⟨hx.1, hx.2, (some.inj hv).symm, rfl⟩
    · exact Or.inl ⟨hv, rfl⟩
  exact
    { h with
      voted_le := fun hv => by
        rcases hcases hv with ⟨hv, _⟩ | ⟨rfl, rfl, _⟩
        · exact h.voted_le hv
        · exact le_rfl
      voted_stood := fun hv => by
        rcases hcases hv with ⟨hv, hlog⟩ | ⟨rfl, rfl, rfl, hlog⟩
        · rw [hlog]; exact h.voted_stood hv
        · rw [hlog]; exact ⟨L, hst, hup⟩
      voteLog_rooted := fun hv => by
        rcases hcases hv with ⟨hv, hlog⟩ | ⟨rfl, rfl, rfl, hlog⟩
        · rw [hlog]; exact h.voteLog_rooted hv
        · rw [hlog]; exact h.log_rooted _
      leader_votes := fun hl => P.mono (fun _ hx => hext.voted hx) (h.leader_votes hl)
      voteLog_acked := fun hv ht ha hc => by
        rcases hcases hv with ⟨hv, hlog⟩ | ⟨rfl, rfl, rfl, hlog⟩
        · rw [hlog]; exact h.voteLog_acked hv ht ha hc
        · rw [hlog]; exact h.log_acked ha hc }

omit [DecidableEq M] in
theorem Rules.Inv.count (h : P.Inv v) (hch : P.Chosen v (v.cur c) (n - 1)) : P.Inv (v.count c n) :=
  { h with
    commit_chosen := by
      intro t ht
      unfold View.count at ht ⊢
      by_cases hx : t = v.cur c
      · subst hx
        simp only [update_self]
        exact hch
      · simp only [ne_eq, hx, not_false_eq_true, update_of_ne] at ht ⊢
        exact h.commit_chosen ht }

/-! ## Elections -/

variable {L : List E}

omit [DecidableEq M] in
/-- The vote quorum of `c` in its current term makes its log hold every choosable
entry of every earlier leader. -/
theorem Rules.Inv.stood_complete (h : P.Inv v) {t' i : ℕ} (ht : t < t')
    (hst : v.stood c t' = some L) (hq : P.IsQuorum {x | v.voted x t' = some c})
    (hch : P.Choosable v t i) : Agree L (v.leaderLog t) i := by
  obtain ⟨x, hx, hvote⟩ := P.inter hch.2 hq
  change i < v.acked x t ∨ v.cur x ≤ t at hx
  change v.voted x t' = some c at hvote
  have hle := h.voted_le hvote
  have hack : i < v.acked x t := by omega
  obtain ⟨L', hst', hup⟩ := h.voted_stood hvote
  obtain rfl : L' = L := by rw [hst] at hst'; exact (Option.some.inj hst').symm
  refine h.upToDate_agree (h.stood_rooted hst) (h.voteLog_rooted hvote) hup hch.1
    (h.voteLog_acked hvote ht hack hch) ?_
  intro u hu hlast
  -- the last entry of the candidate's log is of an elected term below `t'`
  have hne : L' ≠ [] := by rintro rfl; simp [Rules.lastTerm] at hlast; omega
  obtain ⟨g, hg, hlg⟩ := lastTerm_of_getLast (P := P) hne
  have hroot := h.stood_rooted hst _ g hg
  obtain ⟨d, hd⟩ := h.leader_of_mem (hroot.lt (List.getElem?_eq_some_iff.mp hg).1)
  rw [← hlg, ← hlast] at hd
  exact h.complete hu hd hch

theorem Rules.Inv.elect (h : P.Inv v) (hnew : v.leader (v.cur c) = none)
    (hst : v.stood c (v.cur c) = some (v.log c))
    (hq : P.IsQuorum {x | v.voted x (v.cur c) = some c}) : P.Inv (v.elect c) := by
  have hnil := h.leaderless hnew
  have hlog : ∀ t, (v.elect c).leaderLog t = if t = v.cur c then v.log c else v.leaderLog t := by
    intro t
    simp only [View.elect, update_apply]
  have hldr : ∀ t, (v.elect c).leader t = if t = v.cur c then some c else v.leader t := by
    intro t
    simp only [View.elect, update_apply]
  have hack : ∀ x t, (v.elect c).acked x t =
      if x = c ∧ t = v.cur c then (v.log c).length else v.acked x t := fun _ _ => rfl
  have hackne : ∀ x {t}, t ≠ v.cur c → (v.elect c).acked x t = v.acked x t := by
    intro x t ht
    rw [hack, if_neg (by tauto)]
  have hpre := h.leaderLog_le_elect hnew
  have hlt := h.stood_lt hst
  -- the new leader log holds no entry of its own term yet
  have hch : ∀ {u i}, P.Choosable (v.elect c) u i → u ≠ v.cur c ∧ P.Choosable v u i := by
    intro u i hc
    have hne : u ≠ v.cur c := by
      rintro rfl
      obtain ⟨e, he, hte⟩ := hc.1
      rw [hlog, if_pos rfl] at he
      have := hlt e (mem_of_getElem? he)
      omega
    refine ⟨hne, hc.anti (hpre u) ?_ fun x hx => by rwa [hackne x hne] at hx⟩
    have := hc.1.lt
    rwa [hlog, if_neg hne] at this
  exact
    { h with
      voteLog_rooted := fun hv => (h.voteLog_rooted hv).extend hpre
      stood_rooted := fun hs => (h.stood_rooted hs).extend hpre
      log_rooted := fun m => (h.log_rooted m).extend hpre
      leader_votes := by
        intro t b hl
        rw [hldr] at hl
        split_ifs at hl with ht
        · cases hl; subst ht; exact hq
        · exact h.leader_votes hl
      leader_stood := by
        intro t b hl
        rw [hldr] at hl
        rw [hlog]
        split_ifs at hl ⊢ with ht
        · cases hl; subst ht
          exact ⟨v.log c, [], hst, by simp, by simp⟩
        · exact h.leader_stood hl
      leader_log := by
        intro t b hl hb
        rw [hldr] at hl
        rw [hlog]
        split_ifs at hl ⊢ with ht
        · cases hl; rfl
        · exact h.leader_log hl hb
      leaderless := by
        intro t hl
        rw [hldr] at hl
        rw [hlog]
        split_ifs at hl ⊢ with ht
        exact h.leaderless hl
      leaderLog_rooted := by
        intro t
        rw [hlog]
        split_ifs with ht
        · exact (h.log_rooted c).extend hpre
        · exact (h.leaderLog_rooted t).extend hpre
      acked_le := by
        intro m t
        rw [hack]
        split_ifs with hx
        · rw [hlog, if_pos hx.2]
        · exact (h.acked_le m t).trans (hpre t).length_le
      acked_cur := by
        intro m t ha
        rw [hack] at ha
        split_ifs at ha with hx
        · rw [hx.1, hx.2]; rfl
        · exact h.acked_cur ha
      log_acked := by
        intro m t i ha hc
        obtain ⟨hne, hc⟩ := hch hc
        rw [hackne m hne] at ha
        rw [hlog, if_neg hne]
        exact h.log_acked ha hc
      voteLog_acked := by
        intro m t' b t i hv ht ha hc
        obtain ⟨hne, hc⟩ := hch hc
        rw [hackne m hne] at ha
        rw [hlog, if_neg hne]
        exact h.voteLog_acked hv ht ha hc
      complete := by
        intro t t' b i ht hl hc
        obtain ⟨hne, hc⟩ := hch hc
        rw [hlog t, if_neg hne, hlog t']
        rw [hldr] at hl
        split_ifs at hl ⊢ with ht'
        · subst ht'
          exact h.stood_complete ht hst hq hc
        · exact h.complete ht hl hc
      commit_chosen := by
        intro t ht
        have hch := h.commit_chosen ht
        have hne : t ≠ v.cur c := by
          rintro rfl
          have := hch.1.lt
          rw [hnil] at this
          simp at this
        exact hch.extend (hpre t) fun x => by rw [hackne x hne] }

/-! ## Replication -/

section Propose

variable {es : List E} (h : P.Inv v) (hl : v.leader (v.cur c) = some c)
include h hl

/-- The log a leader extends is rooted: the new entries are of its own term. -/
theorem Rules.Inv.rooted_propose (hes : ∀ e ∈ es, P.term e = v.cur c) : P.Rooted (v.propose c es) (v.log c ++ es) := by
  intro i e he
  rcases Nat.lt_or_ge i (v.log c).length with hi | hi
  · rw [getElem?_append_left hi] at he
    have := (h.log_rooted c).extend (h.leaderLog_le_propose hl es) i e he
    exact (Agree.extend (prefix_append _ _) hi).symm.trans this
  · rw [getElem?_append_right hi] at he
    rw [hes e (mem_of_getElem? he), leaderLog_propose, if_pos rfl]
    rfl

/-- An index that is choosable now was choosable before, or is new and nobody has left the term. -/
theorem Rules.Inv.choosable_propose {u i : ℕ}
    (hc : P.Choosable (v.propose c es) u i) : P.Choosable v u i ∨
      u = v.cur c ∧ (v.leaderLog u).length ≤ i ∧ P.IsQuorum {m | v.cur m ≤ u} := by
  rcases Nat.lt_or_ge i (v.leaderLog u).length with hi | hi
  · refine Or.inl (hc.anti (h.leaderLog_le_propose hl es u) hi ?_)
    intro m hm
    rw [acked_propose] at hm
    split_ifs at hm with hx
    · right; rw [hx.1, hx.2]
    · exact hm
  · have hu : u = v.cur c := by
      by_contra hne
      have := hc.1.lt
      rw [leaderLog_propose, if_neg hne] at this
      omega
    refine Or.inr ⟨hu, hi, P.mono ?_ hc.2⟩
    intro m hm
    change i < (v.propose c es).acked m u ∨ v.cur m ≤ u at hm
    change v.cur m ≤ u
    rw [acked_propose] at hm
    split_ifs at hm with hx
    · rw [hx.1, hx.2]
    · have := h.acked_le m u
      omega

theorem Rules.Inv.propose (hes : ∀ e ∈ es, P.term e = v.cur c) : P.Inv (v.propose c es) := by
  have hcl := h.leader_log hl rfl
  have hpre := h.leaderLog_le_propose hl es
  exact
    { h with
      voteLog_rooted := fun hv => (h.voteLog_rooted hv).extend hpre
      stood_rooted := fun hs => (h.stood_rooted hs).extend hpre
      log_rooted := by
        intro m
        rw [log_propose]
        split_ifs with hm
        · exact h.rooted_propose hl hes
        · exact (h.log_rooted m).extend hpre
      log_le := by
        intro m e he
        change P.term e ≤ v.cur m
        rw [log_propose] at he
        split_ifs at he with hm
        · subst hm
          rcases mem_append.mp he with he | he
          · exact h.log_le _ e he
          · exact (hes e he).le
        · exact h.log_le m e he
      leader_stood := by
        intro t b hb
        obtain ⟨L, own, hst, hL, hown⟩ := h.leader_stood hb
        rw [leaderLog_propose]
        split_ifs with ht
        · subst ht
          refine ⟨L, own ++ es, hst, by rw [hcl, hL, append_assoc], ?_⟩
          intro e he
          rcases mem_append.mp he with he | he
          · exact hown e he
          · exact hes e he
        · exact ⟨L, own, hst, hL, hown⟩
      leader_log := by
        intro t b hb hcur
        change v.leader t = some b at hb
        change v.cur b = t at hcur
        rw [leaderLog_propose, log_propose]
        by_cases hbc : b = c
        · subst hbc; subst hcur; simp
        · have ht : t ≠ v.cur c := by
            rintro rfl; rw [hl] at hb; exact hbc (some.inj hb).symm
          rw [if_neg hbc, if_neg ht]
          exact h.leader_log hb hcur
      leaderless := by
        intro t ht
        have hne : t ≠ v.cur c := by
          rintro rfl; rw [show (v.propose c es).leader = v.leader from rfl, hl] at ht; cases ht
        rw [leaderLog_propose, if_neg hne]
        exact h.leaderless ht
      leaderLog_rooted := by
        intro t
        rw [leaderLog_propose]
        split_ifs with ht
        · exact h.rooted_propose hl hes
        · exact (h.leaderLog_rooted t).extend hpre
      acked_le := by
        intro m t
        rw [acked_propose, leaderLog_propose]
        split_ifs with hx ht ht
        · exact le_rfl
        · exact absurd hx.2 ht
        · have := h.acked_le m t
          rw [ht, ← hcl] at this
          rw [ht, length_append]; omega
        · exact h.acked_le m t
      acked_cur := by
        intro m t ha
        change t ≤ v.cur m
        rw [acked_propose] at ha
        split_ifs at ha with hx
        · rw [hx.1, hx.2]
        · exact h.acked_cur ha
      log_acked := by
        intro m t i ha hc
        rw [log_propose, leaderLog_propose]
        rw [acked_propose] at ha
        by_cases hm : m = c
        · subst hm
          by_cases ht : t = v.cur m
          · rw [if_pos rfl, if_pos ht]; rfl
          · rw [if_neg (by tauto)] at ha
            rw [if_pos rfl, if_neg ht]
            rcases h.choosable_propose hl hc with hc | ⟨rfl, _⟩
            · have hag := h.log_acked ha hc
              have hlen : i < (v.log m).length := hag.symm.lt hc.1.lt
              exact (Agree.extend (prefix_append _ _) hlen).symm.trans hag
            · exact absurd rfl ht
        · rw [if_neg (by tauto)] at ha
          rw [if_neg hm, ← leaderLog_propose]
          have hlt : i < (v.leaderLog t).length := ha.trans_le (h.acked_le m t)
          rcases h.choosable_propose hl hc with hc | ⟨_, hge, _⟩
          · exact (h.log_acked ha hc).trans (Agree.extend (hpre t) hlt)
          · omega
      voteLog_acked := by
        intro m t' b t i hv ht ha hc
        have hle := h.voted_le hv
        have hne : ¬ (m = c ∧ t = v.cur c) := by rintro ⟨rfl, rfl⟩; omega
        rw [acked_propose, if_neg hne] at ha
        have hlt : i < (v.leaderLog t).length := ha.trans_le (h.acked_le m t)
        rcases h.choosable_propose hl hc with hc | ⟨_, hge, _⟩
        · exact (h.voteLog_acked hv ht ha hc).trans (Agree.extend (hpre t) hlt)
        · omega
      complete := by
        intro t t' b i ht hb hc
        change v.leader t' = some b at hb
        rcases h.choosable_propose hl hc with hc | ⟨_, _, hq⟩
        · have hag := h.complete ht hb hc
          have hlt := hc.1.lt
          exact ((Agree.extend (hpre t') (hag.symm.lt hlt)).symm.trans hag).trans
            (Agree.extend (hpre t) hlt)
        · -- the voters of the later leader have left term `t`
          obtain ⟨x, hx, hx'⟩ := P.inter hq (h.leader_votes hb)
          change v.cur x ≤ t at hx
          have := h.voted_le hx'
          omega
      commit_chosen := fun ht => (h.commit_chosen ht).extend (hpre _) fun m => h.acked_le_propose hl m _ }

end Propose

theorem overlay_take (L K : List E) (n : ℕ) : (overlay L K n).take n = K.take n := by
  unfold overlay
  split_ifs with heq
  · exact heq
  · rw [take_take, Nat.min_self]

theorem Agree.overlay {L K : List E} {i n : ℕ} (hag : Agree L K i) : Agree (overlay L K n) K i := by
  unfold Protocol.overlay
  split_ifs with heq
  · exact hag
  · have hlt : i < n := by
      by_contra hnot
      exact heq (take_eq_of_le hag (by omega))
    exact Agree.take rfl hlt

theorem Rules.Inv.accept (h : P.Inv v) (hl : v.leader (v.cur m) = some c)
    (hn : n ≤ (v.leaderLog (v.cur m)).length) : P.Inv (v.accept m n) := by
  have hlog : ∀ x, (v.accept m n).log x =
      if x = m then overlay (v.log m) (v.leaderLog (v.cur m)) n else v.log x := by
    intro x
    simp only [View.accept, update_apply]
  have hack : ∀ x t, (v.accept m n).acked x t =
      if x = m ∧ t = v.cur m then max (v.acked m t) n else v.acked x t := fun _ _ => rfl
  have hch : ∀ {u i}, P.Choosable (v.accept m n) u i → P.Choosable v u i := by
    intro u i hc
    have hpre : v.leaderLog u <+: (v.accept m n).leaderLog u := prefix_rfl
    refine hc.anti hpre hc.1.lt ?_
    intro x hx
    rw [hack] at hx
    split_ifs at hx with hxm
    · right; rw [hxm.1, hxm.2]
    · exact hx
  exact
    { h with
      log_rooted := by
        intro x
        rw [hlog]
        split_ifs with hx
        · unfold overlay
          split_ifs
          · exact h.log_rooted m
          · exact (h.leaderLog_rooted _).take n
        · exact h.log_rooted x
      log_le := by
        intro x e he
        change P.term e ≤ v.cur x
        rw [hlog] at he
        split_ifs at he with hx
        · subst hx
          unfold overlay at he
          split_ifs at he
          · exact h.log_le _ e he
          · exact h.leaderLog_le _ e (mem_of_mem_take he)
        · exact h.log_le x e he
      leader_log := by
        intro t b hb hcur
        change v.leader t = some b at hb
        change v.cur b = t at hcur
        have hbl := h.leader_log hb hcur
        rw [hlog]
        split_ifs with hx
        · subst hx; subst hcur
          unfold overlay
          rw [if_pos (by rw [hbl])]
          exact hbl
        · exact hbl
      acked_le := by
        intro x t
        change (v.accept m n).acked x t ≤ (v.leaderLog t).length
        rw [hack]
        split_ifs with hx
        · have := h.acked_le m t
          rw [hx.2] at this ⊢
          omega
        · exact h.acked_le x t
      acked_cur := by
        intro x t ha
        change t ≤ v.cur x
        rw [hack] at ha
        split_ifs at ha with hx
        · rw [hx.1, hx.2]
        · exact h.acked_cur ha
      log_acked := by
        intro x t i ha hc
        have hc' := hch hc
        change Agree _ (v.leaderLog t) i
        rw [hlog]
        rw [hack] at ha
        split_ifs at ha with hx
        · obtain ⟨rfl, rfl⟩ := hx
          rw [if_pos rfl]
          rcases Nat.lt_or_ge i n with hi | hi
          · exact take_eq_of_le (overlay_take (v.log x) (v.leaderLog (v.cur x)) n) hi
          · exact (h.log_acked (by omega) hc').overlay
        · have hag := h.log_acked ha hc'
          by_cases hxm : x = m
          · subst hxm
            rw [if_pos rfl]
            -- an acknowledgement of an earlier term: the leader of this one holds it
            have hle := h.acked_cur (show 0 < v.acked x t by omega)
            have hlt : t < v.cur x := by
              rcases Nat.lt_or_ge t (v.cur x) with hlt | hge
              · exact hlt
              · exact absurd ⟨rfl, by omega⟩ hx
            have hcomp := h.complete hlt hl hc'
            exact ((hag.trans hcomp.symm).overlay).trans hcomp
          · rw [if_neg hxm]; exact hag
      voteLog_acked := by
        intro x t' b t i hv ht ha hc
        have hle := h.voted_le hv
        have hne : ¬ (x = m ∧ t = v.cur m) := by rintro ⟨rfl, rfl⟩; omega
        rw [hack, if_neg hne] at ha
        exact h.voteLog_acked hv ht ha (hch hc)
      complete := fun ht hb hc => h.complete ht hb (hch hc)
      commit_chosen := by
        intro t ht
        have hpre : v.leaderLog t <+: (v.accept m n).leaderLog t := prefix_rfl
        exact (h.commit_chosen ht).extend hpre fun x => acked_le_accept x t }

theorem Rules.Inv.act (h : P.Inv v) (a : Act P m v v') : P.Inv v' := by
  cases a with
  | bump hlt => exact h.bump hlt
  | stand hnew hlt => exact h.stand hnew hlt
  | vote hnew hst hup => exact h.vote hnew hst hup
  | elect hnew hst hq => exact h.elect hnew hst hq
  | propose hl hes => exact h.propose hl hes
  | accept hl hn => exact h.accept hl hn
  | count hl hn hpos hch => exact h.count hch

/-! ## Acknowledged prefixes -/

/-- Every member's log begins with what it has acknowledged in its current term. -/
def View.Held (v : View M E) : Prop :=
  ∀ m, (v.log m).take (v.acked m (v.cur m)) = (v.leaderLog (v.cur m)).take (v.acked m (v.cur m))

omit [DecidableEq M] in
theorem init_held : (View.init : View M E).Held := fun _ => rfl

/-- A member that enters a later term has acknowledged nothing in it. -/
theorem View.Held.bump (h : v.Held) (hinv : P.Inv v) (hlt : v.cur m < t) : (v.bump m t).Held := by
  intro x
  unfold View.bump
  by_cases hx : x = m
  · subst hx
    have hzero : v.acked x t = 0 := by
      by_contra hpos
      have := hinv.acked_cur (Nat.pos_of_ne_zero hpos)
      omega
    simp only [update_self, hzero, take_zero]
  · simp only [update_of_ne hx]
    exact h x

/-- A new leader has acknowledged its own log, and the others nothing of it. -/
theorem View.Held.elect (h : v.Held) (hinv : P.Inv v)
    (hnew : v.leader (v.cur c) = none) : (v.elect c).Held := by
  intro x
  by_cases hx : x = c
  · subst hx
    simp [View.elect]
  · by_cases hterm : v.cur x = v.cur c
    · have hzero : v.acked x (v.cur x) = 0 := by
        have := hinv.acked_le x (v.cur x)
        rw [hterm, hinv.leaderless hnew] at this
        rw [hterm]
        simpa using this
      simp [View.elect, hx, hzero]
    · simp only [View.elect, hx, false_and, if_false, update_of_ne hterm]
      exact h x

/-- The leader's new entries lie above everything acknowledged. -/
theorem View.Held.propose (h : v.Held) (hinv : P.Inv v) {es : List E}
    (hl : v.leader (v.cur c) = some c) : (v.propose c es).Held := by
  have hlog : v.log c = v.leaderLog (v.cur c) := hinv.leader_log hl rfl
  intro x
  by_cases hx : x = c
  · subst hx
    simp [View.propose]
  · by_cases hterm : v.cur x = v.cur c
    · have hle := hinv.acked_le x (v.cur x)
      have hx' := h x
      simp only [View.propose, hx, false_and, if_false, update_of_ne hx]
      rw [hterm] at hle hx' ⊢
      rw [update_self, hlog, take_append_of_le_length hle]
      exact hx'
    · simp only [View.propose, hx, false_and, if_false, update_of_ne hx, update_of_ne hterm]
      exact h x

/-- Taking over a prefix keeps a longer acknowledged one. -/
theorem View.Held.accept (h : v.Held) (m : M) (n : ℕ) : (v.accept m n).Held := by
  intro x
  by_cases hx : x = m
  · subst hx
    have hx' := h x
    simp only [View.accept, update_self, and_self, if_true]
    generalize v.acked x (v.cur x) = a at hx' ⊢
    unfold Protocol.overlay
    split_ifs with hsame
    · rcases max_choice a n with hmax | hmax
      · rw [hmax]
        exact hx'
      · rw [hmax]
        exact hsame
    · have hlt : a < n := by
        by_contra hle
        exact hsame (take_eq_of_le hx' (not_lt.mp hle))
      rw [max_eq_right hlt.le, take_take, Nat.min_self]
  · simp only [View.accept, hx, false_and, if_false, update_of_ne hx]
    exact h x

theorem View.Held.act (h : v.Held) (hinv : P.Inv v) (a : Act P m v v') : v'.Held := by
  cases a with
  | bump hlt => exact h.bump hinv hlt
  | stand hnew hlt => exact h
  | vote hnew hst hup => exact h
  | elect hnew hst hq => exact h.elect hinv hnew
  | propose hl hes => exact h.propose hinv hl
  | accept hl hn => exact h.accept m _
  | count hl hn hpos hch => exact h

/-! ## Safety -/

omit [DecidableEq M]

/-- **Leader completeness.** Every later leader holds a chosen entry and all
before it. -/
theorem Rules.Inv.chosen_complete (h : P.Inv v) {t' i : ℕ} (ht : t ≤ t') (hl : v.leader t' = some c)
    (hch : P.Chosen v t i) :
    Agree (v.leaderLog t') (v.leaderLog t) i := by
  rcases Nat.eq_or_lt_of_le ht with rfl | ht
  · rfl
  · exact h.complete ht hl hch.choosable

variable {b : ℕ}

theorem Committed.mono {b' : ℕ} (hle : Le v v') (hb : b ≤ b')
    (h : Committed v b L n) : Committed v' b' L n := by
  rcases h with h0 | ⟨t, ht, hn, hL, heq⟩
  · exact Or.inl h0
  · refine Or.inr ⟨t, ht.trans hb, hn.trans (hle.commit t), hL, ?_⟩
    have hlen : n ≤ (v.leaderLog t).length := by
      have := congrArg length heq
      simp only [length_take] at this
      omega
    obtain ⟨K, hK⟩ := hle.leaderLog t
    rw [heq, ← hK, take_append_of_le_length hlen]

theorem Committed.take_eq {K : List E} {k : ℕ} (h : Committed v b L n) (hk : k ≤ n)
    (hK : K.take k = L.take k) : Committed v b K k := by
  rcases h with h0 | ⟨t, ht, hn, hL, heq⟩
  · exact Or.inl (by omega)
  · have hlen : k ≤ K.length := by
      have := congrArg length hK
      simp only [length_take] at this
      omega
    refine Or.inr ⟨t, ht, hk.trans hn, hlen, ?_⟩
    rw [hK, take_eq_of_le heq hk]

theorem Committed.le_length (h : Committed v b L n) : n ≤ L.length := by
  rcases h with h0 | ⟨_, _, _, hL, _⟩
  · omega
  · exact hL

/-- A committed prefix is a prefix of the log of every leader from its term on. -/
theorem Rules.Inv.committed_leader (h : P.Inv v) (hcm : Committed v b L n) (hb : b ≤ t)
    (hl : v.leader t = some c) :
    (v.leaderLog t).take n = L.take n := by
  rcases hcm with h0 | ⟨u, hu, hn, hL, heq⟩
  · subst h0; simp
  · rcases Nat.eq_zero_or_pos n with h0 | hpos
    · subst h0; simp
    · have hch := h.commit_chosen (t := u) (by omega)
      have hag := (h.chosen_complete (hu.trans hb) hl hch).mono (j := n - 1) (by omega)
      unfold Agree at hag
      rw [Nat.sub_add_cancel hpos] at hag
      rw [hag, heq]

/-- **State-machine safety.** Any two committed prefixes agree where both reach. -/
theorem Rules.Inv.committed_agree (h : P.Inv v) {b' : ℕ} {K : List E} {k : ℕ}
    (hL : Committed v b L n) (hK : Committed v b' K k) :
    L.take (min n k) = K.take (min n k) := by
  have hL' := hL.take_eq (k := min n k) (by omega) rfl
  have hK' := hK.take_eq (k := min n k) (by omega) rfl
  generalize min n k = j at hL' hK'
  rcases hL' with h0 | ⟨t, _, hn, hlen, heq⟩
  · subst h0; simp
  · rcases hK' with h0 | ⟨u, _, hn', hlen', heq'⟩
    · subst h0; simp
    · rcases Nat.eq_zero_or_pos j with h0 | hpos
      · subst h0; simp
      -- the later of the two leaders holds both prefixes
      rcases Nat.le_total t u with htu | hut
      · obtain ⟨c, hc⟩ := h.leader_of_mem (h.commit_chosen (t := u) (by omega)).1.lt
        rw [← h.committed_leader (Or.inr ⟨t, le_rfl, hn, hlen, heq⟩) htu hc, heq']
      · obtain ⟨c, hc⟩ := h.leader_of_mem (h.commit_chosen (t := t) (by omega)).1.lt
        rw [heq, h.committed_leader (Or.inr ⟨u, le_rfl, hn', hlen', heq'⟩) hut hc]

end FrankenGraph.Protocol

import FrankenGraph.Order.Upkeep

/-!
# Admitted inputs

What `validate_event` (`crates/fgdb-order/src/lib.rs` L951-1106) leaves for the transition, and
the methods that rely on it: appends, acknowledgements, snapshot offers, compaction and
installation.

Results:
* `validateEvent_accepts`: what admission checks.
* `transition_settles`: from a sound machine an admitted event leads to a sound machine, or exhausts
  a counter.
-/

namespace FrankenGraph.Order

open List Option Raft PersistentState Std.ExtTreeMap

variable {C : Type} [DecidableEq C] {r : Raft C} {output : Output C}

/-! ## Appends -/

/-- The fields an append is compared with. -/
def Raft.log (r : Raft C) : List (Entry C) × Option SnapshotCut × ℕ × Limits :=
  (r.state.entries, r.state.snapshot, r.state.commitIndex, r.limits)

variable {r' : Raft C}

section

omit [DecidableEq C]

theorem follow_log (r : Raft C) (term : ℕ) : (r.follow term).log = r.log := by
  unfold follow log
  dsimp only
  split_ifs <;> rfl

theorem acceptLeader_log (sender : MemberId) (term : ℕ) :
    (r.acceptLeader sender term output).1.log = r.log := by
  refine Eq.trans ?_ (follow_log r term)
  unfold acceptLeader log
  dsimp only
  split_ifs <;> rfl

theorem entryAt_congr (hlog : r'.log = r.log) (i : ℕ) : r'.state.entryAt i = r.state.entryAt i := by
  simp only [log, Prod.mk.injEq] at hlog
  unfold entryAt baseIndex
  rw [hlog.1, hlog.2.1]

theorem termAt_congr (hlog : r'.log = r.log) (i : ℕ) : r'.state.termAt i = r.state.termAt i := by
  have hentry := entryAt_congr hlog i
  simp only [log, Prod.mk.injEq] at hlog
  unfold termAt baseIndex baseTerm
  rw [hlog.2.1, hentry]

end

theorem appendConflict_congr (hlog : r'.log = r.log) (es : List (Entry C)) :
    ∀ i, r'.appendConflict i es = r.appendConflict i es := by
  have hcommit : r'.state.commitIndex = r.state.commitIndex := by
    simp only [log, Prod.mk.injEq] at hlog
    exact hlog.2.2.1
  induction es with
  | nil => exact fun _ => rfl
  | cons e rest ih =>
    intro i
    unfold appendConflict
    rw [entryAt_congr hlog, hcommit]
    simp only [ih]

/-- What the admission of an append checks. -/
structure Acceptable (r : Raft C) (term prev prevTerm : ℕ) (es : List (Entry C)) : Prop where
  last_lt : prev + es.length < u64Max
  terms : Raft.termsAscend term prevTerm es = true
  matching : r.state.term ≤ term → r.state.termAt prev = some prevTerm →
    prev + es.length - r.state.baseIndex ≤ r.limits.maxLogEntries ∧
      r.appendConflict (prev + 1) es = .ok ()

variable {term prev prevTerm : ℕ} {es : List (Entry C)}

theorem Acceptable.congr (h : Acceptable r term prev prevTerm es) (hlog : r'.log = r.log)
    (hterm : r.state.term ≤ r'.state.term) : Acceptable r' term prev prevTerm es := by
  refine ⟨h.last_lt, h.terms, fun hle hmatch => ?_⟩
  rw [termAt_congr hlog] at hmatch
  obtain ⟨hlength, hconflict⟩ := h.matching (hterm.trans hle) hmatch
  rw [appendConflict_congr hlog]
  simp only [log, Prod.mk.injEq] at hlog
  unfold baseIndex
  rw [hlog.2.1, hlog.2.2.2]
  exact ⟨hlength, hconflict⟩

/-- The loop over an append leaves the log alone, or replaces it from the position on by entries
with the terms of the append, and never below the commit index. -/
theorem appendEntries_kept (hcommit : r.state.commitIndex ≤ r.state.lastIndex)
    (es : List (Entry C)) : ∀ p changed, p ≤ r.state.entries.length →
      r.appendConflict (r.state.baseIndex + p + 1) es = .ok () →
      appendEntries p es (r.state.entries, changed) = (r.state.entries, changed) ∧
          p + es.length ≤ r.state.entries.length ∨
        (appendEntries p es (r.state.entries, changed)).2 = true ∧
          (appendEntries p es (r.state.entries, changed)).1.map Entry.term =
            (r.state.entries.take p ++ es).map Entry.term ∧
          r.state.commitIndex ≤ r.state.baseIndex + (p + es.length) := by
  induction es with
  | nil => exact fun p changed hp _ => .inl ⟨rfl, hp⟩
  | cons e rest ih =>
    intro p changed hp hconflict
    -- a cut at `p` followed by the rest of the append
    have hcut : ∀ l : List (Entry C), l = r.state.entries.take p →
        r.state.commitIndex ≤ r.state.baseIndex + p →
        appendEntries p (e :: rest) (r.state.entries, changed) =
          appendEntries (l ++ [e]).length rest (l ++ [e], true) →
        (appendEntries p (e :: rest) (r.state.entries, changed)).2 = true ∧
          (appendEntries p (e :: rest) (r.state.entries, changed)).1.map Entry.term =
            (r.state.entries.take p ++ e :: rest).map Entry.term ∧
          r.state.commitIndex ≤ r.state.baseIndex + (p + (e :: rest).length) := by
      intro l hl hbelow hstep
      obtain ⟨hlog, hflag⟩ := appendEntries_end rest (l ++ [e]) true
      rw [hstep, hlog, hl, append_assoc, singleton_append]
      refine ⟨?_, rfl, by omega⟩
      rw [hl] at hflag
      cases hvalue : (appendEntries (r.state.entries.take p ++ [e]).length rest
        (r.state.entries.take p ++ [e], true)).2 with
      | true => rfl
      | false => cases (hflag hvalue).1
    rcases Nat.eq_or_lt_of_le hp with hend | hlt
    · refine .inr (hcut r.state.entries (by rw [hend, take_length]) ?_ ?_)
      · unfold lastIndex at hcommit
        omega
      · rw [appendEntries]
        simp [hend]
    · have hget : r.state.entries[p]? = some r.state.entries[p] := getElem?_eq_getElem hlt
      unfold appendConflict at hconflict
      rw [entryAt_above, hget] at hconflict
      dsimp only at hconflict
      split_ifs at hconflict with hterm hcommand
      · rw [refuse_eq_ok, decide_eq_false_iff_not] at hconflict
        refine .inr (hcut (r.state.entries.take p) rfl (by omega) ?_)
        rw [appendEntries]
        simp [hget, hterm, Nat.min_eq_left hlt.le]
      · have hstep : appendEntries p (e :: rest) (r.state.entries, changed) =
            appendEntries (p + 1) rest (r.state.entries, changed) := by
          rw [appendEntries]
          simp [hget, not_not.mp hterm, show p ≠ r.state.entries.length by omega]
        rw [hstep, length_cons]
        refine (ih (p + 1) changed hlt hconflict).imp (fun hsame => ⟨hsame.1, by omega⟩)
          fun hnew => ⟨hnew.1, ?_, by omega⟩
        have htake : r.state.entries.take (p + 1) =
            r.state.entries.take p ++ [r.state.entries[p]] := by
          rw [take_add_one, hget]
          rfl
        rw [hnew.2.1, htake, append_assoc, singleton_append, map_append,
          map_append, map_cons, map_cons, not_not.mp hterm]

theorem takeAppend_moves (h : Sound r) (output : Output C) (hrole : r.role = .follower)
    (hprev : r.state.termAt prev = some prevTerm)
    (hacceptable : Acceptable r r.state.term prev prevTerm es) (leaderCommit : ℕ) :
    Moves r output (r.takeAppend prev es leaderCommit, output) := by
  obtain ⟨hlength, hconflict⟩ := hacceptable.matching le_rfl hprev
  have hlast := hacceptable.last_lt
  obtain ⟨hbase, hle⟩ := termAt_le hprev
  obtain ⟨p, rfl⟩ : ∃ p, prev = r.state.baseIndex + p := ⟨prev - r.state.baseIndex, by omega⟩
  have hp : p ≤ r.state.entries.length := by
    unfold lastIndex at hle
    omega
  have hcases := appendEntries_kept h.recoverable.commit_le es p r.logChanged hp hconflict
  generalize happend : appendEntries p es (r.state.entries, r.logChanged) = result at hcases
  obtain ⟨log, changed⟩ := result
  have hcommit := h.recoverable.commit_le
  -- the new log, its reach and the flag
  have hnew : Recoverable r.id r.limits { r.state with entries := log } ∧
      r.state.baseIndex + p + es.length ≤ r.state.baseIndex + log.length ∧
      (changed = false → r.logChanged = false ∧ log = r.state.entries) := by
    rcases hcases with ⟨heq, hreach⟩ | ⟨hflag, hterms, hbelow⟩
    · cases heq
      exact ⟨h.recoverable, by omega, fun hk => ⟨hk, rfl⟩⟩
    · have hlen := congrArg length hterms
      rw [length_map, length_map, length_append, length_take, Nat.min_eq_left hp] at hlen
      change log.length = p + es.length at hlen
      refine ⟨?_, by omega, fun hk => by cases hflag.symm.trans hk⟩
      exact h.recoverable.append hprev hacceptable.terms hterms (by omega) (by omega) hbelow
  obtain ⟨hrecoverable, hreach, hkept⟩ := hnew
  have hresult : r.takeAppend (r.state.baseIndex + p) es leaderCommit =
      let next := max r.state.commitIndex (min leaderCommit (r.state.baseIndex + p + es.length))
      { r with
        logChanged := changed
        state := { r.state with entries := log, commitIndex := next }
        incomingSnapshot := if r.incomingSnapshot.any fun pending =>
          decide (pending.transfer.snapshot.index ≤ next) then none else r.incomingSnapshot } := by
    unfold takeAppend
    rw [Nat.add_sub_cancel_left, happend]
    dsimp only
    split_ifs <;> rfl
  rw [hresult]
  have hempty := h.idle (by rw [hrole]; decide)
  refine ⟨.ofFollower ?_ hrole hempty ?_, ⟨rfl, rfl, rfl, rfl, le_max_left _ _, ?_⟩, rfl, rfl, rfl⟩
  · refine hrecoverable.commit (le_max_left _ _) (max_le hrecoverable.commit_le ?_)
    exact (Nat.min_le_right _ _).trans hreach
  · intro pending hpending
    dsimp only at hpending
    split_ifs at hpending with hcovered
    obtain ⟨-, -, hindex, hterm, hdomain, hconfiguration⟩ := h.awaited pending hpending
    refine ⟨hrole, ?_, hindex, hterm, hdomain, hconfiguration⟩
    rw [hpending, any_some, decide_eq_true_eq, Nat.not_le] at hcovered
    exact hcovered
  · intro hk
    obtain ⟨hflag, hlog⟩ := hkept hk
    exact ⟨hflag, hlog, rfl⟩

theorem receiveAppend_moves (h : Sound r) (output : Output C) (sender : MemberId)
    (hacceptable : Acceptable r term prev prevTerm es) (request leaderCommit : ℕ) :
    Moves r output (r.receiveAppend sender term request prev prevTerm es leaderCommit output) := by
  unfold receiveAppend
  by_cases hstale : term < r.state.term
  · rw [if_pos hstale]
    exact .same h rfl rfl
  · rw [if_neg hstale]
    have haccept := acceptLeader_moves h output sender term
    have hlog : (r.acceptLeader sender term output).1.log = r.log := acceptLeader_log sender term
    have hstate : (r.acceptLeader sender term output).1.state = (r.follow term).state ∧
        (r.acceptLeader sender term output).1.role = .follower := by
      unfold acceptLeader
      dsimp only
      exact ⟨by split_ifs <;> rfl, by split_ifs <;> exact follow_role r term⟩
    have hterm : (r.acceptLeader sender term output).1.state.term = term := by
      rw [hstate.1]
      exact follow_term (by omega)
    have hcarried := hacceptable.congr hlog (by omega)
    generalize r.acceptLeader sender term output = s at haccept hlog hstate hterm hcarried ⊢
    dsimp only
    by_cases hmatch : s.1.state.termAt prev = some prevTerm
    · rw [if_neg (not_not.mpr hmatch)]
      have htake := takeAppend_moves haccept.sound s.2 hstate.2 hmatch (hterm.symm ▸ hcarried)
        leaderCommit
      exact (haccept.trans htake).trans (.same htake.sound rfl rfl)
    · rw [if_pos hmatch]
      exact haccept.trans (.same haccept.sound rfl rfl)

/-! ## Acknowledgements -/

variable {cut : SnapshotCut}
variable {u : Unit}

section

omit [DecidableEq C]

theorem acknowledge_settles (h : Sound r) (hrole : r.role = .leader) (sender : MemberId)
    {last : ℕ} (hlast : last ≤ r.state.lastIndex) :
    Settles (r.acknowledge sender last output) (Moves r output) := by
  have hack := Moves.modify h output sender (f := fun progress =>
    let matched := max progress.matched last
    { progress with
      matched
      next := max progress.next (matched + 1)
      probing := false
      inFlight := progress.inFlight.filter fun flight => decide (last < flight.last) })
    fun progress hp => by
      obtain ⟨hmatched, hnext, hflights⟩ := h.tracked sender progress hp
      refine ⟨?_, ?_, fun flight hmem => hflights flight (mem_of_mem_filter hmem)⟩
      · dsimp only
        omega
      · dsimp only
        omega
  have hadvance := (advanceCommit_moves hack.sound output
    (by change r.role ≠ .follower; rw [hrole]; decide)).1
  have hmoves := hack.trans hadvance
  unfold acknowledge
  dsimp only
  split_ifs
  · exact .after hmoves (broadcast_settles hmoves.sound false)
  · exact .after hmoves (sendAppend_settles hmoves.sound sender false)
  · exact .ok hmoves

theorem receiveAppended_settles (h : Sound r) (sender : MemberId) (term request : ℕ)
    (success : Bool) (conflictNext : ℕ) :
    Settles (r.receiveAppended sender term request success conflictNext output) (Moves r output) := by
  unfold receiveAppended
  by_cases hstop : term ≠ r.state.term ∨ r.role ≠ .leader
  · rw [if_pos hstop]
    exact .ok (.refl h)
  rw [if_neg hstop]
  have hrole := not_not.mp (not_or.mp hstop).2
  cases hflight : r.pendingAppend sender request with
  | none => exact .ok (.refl h)
  | some flight =>
    cases flight with
    | snapshot issued cut => exact .ok (.refl h)
    | append issued prev last =>
      have hfits : Fits r.state (.append issued prev last) := by
        unfold pendingAppend at hflight
        obtain ⟨progress, hp, hfind⟩ := bind_eq_some_iff.mp hflight
        exact (h.tracked sender progress hp).flights _ (mem_of_find?_eq_some hfind)
      obtain ⟨hbase, hle, hlast⟩ := hfits
      dsimp only
      by_cases hsuccess : success = true
      · rw [if_pos hsuccess]
        exact acknowledge_settles h hrole sender hlast
      · rw [if_neg hsuccess]
        -- the window closes and the next probe stays within the log
        have hback := Moves.modify h output sender (f := fun progress =>
          let hint := if prev + 1 < conflictNext then min conflictNext (r.state.lastIndex + 1)
            else min (max conflictNext 1) (max prev 1)
          { progress with
            next := max hint (progress.matched + 1), inFlight := [], probing := true })
          fun progress hp => by
            obtain ⟨hmatched, hnext, -⟩ := h.tracked sender progress hp
            refine ⟨?_, ?_, fun flight hmem => by cases hmem⟩
            · dsimp only
              omega
            · dsimp only
              split_ifs <;> omega
        exact .after hback (sendAppend_settles hback.sound sender false)

theorem receiveSnapshotInstalled_settles (h : Sound r) (sender : MemberId) (term request : ℕ) :
    Settles (r.receiveSnapshotInstalled sender term request output) (Moves r output) := by
  unfold receiveSnapshotInstalled
  by_cases hstop : term ≠ r.state.term ∨ r.role ≠ .leader
  · rw [if_pos hstop]
    exact .ok (.refl h)
  rw [if_neg hstop]
  have hrole := not_not.mp (not_or.mp hstop).2
  cases hflight : (r.progress[sender]?).bind fun progress => progress.inFlight.head? with
  | none => exact .ok (.refl h)
  | some flight =>
    have hfits : Fits r.state flight := by
      obtain ⟨progress, hp, hhead⟩ := bind_eq_some_iff.mp hflight
      exact (h.tracked sender progress hp).flights _ (mem_of_mem_head? hhead)
    cases flight with
    | append issued prev last => exact .ok (.refl h)
    | snapshot expected cut =>
      dsimp only
      split_ifs
      · exact acknowledge_settles h hrole sender hfits.last_le
      · exact .ok (.refl h)

/-! ## Snapshots -/

/-- A cut of the machine's own domain and configuration. -/
def Local (r : Raft C) (cut : SnapshotCut) : Prop :=
  cut.domain = r.state.configuration.domain ∧ cut.configuration = r.state.configuration.identity

/-- The machine begins to wait for a cut. -/
theorem await_moves (h : Sound r) (output : Output C) (pending : IncomingSnapshot)
    (hawaited : Awaited r pending) :
    Moves r output ({ r with incomingSnapshot := some pending }, output) := by
  refine ⟨{ h with awaited := fun other hother => ?_ }, .same rfl, rfl, rfl, rfl⟩
  cases hother
  exact { hawaited with }

theorem offerSnapshot_moves (h : Sound r) (output : Output C) (sender : MemberId)
    (hlocal : Local r cut) (hterm : cut.term ≤ term) (hindex : cut.index < u64Max) (request : ℕ) :
    Moves r output (r.offerSnapshot sender term request cut output) := by
  unfold offerSnapshot
  by_cases hstale : term < r.state.term
  · rw [if_pos hstale]
    exact .same h rfl rfl
  rw [if_neg hstale]
  have haccept := acceptLeader_moves h output sender term
  have hrole : (r.acceptLeader sender term output).1.role = .follower := by
    unfold acceptLeader
    dsimp only
    split_ifs <;> exact follow_role r term
  have hlocal' : Local (r.acceptLeader sender term output).1 cut := by
    unfold Local
    rw [haccept.frame.configuration]
    exact hlocal
  generalize r.acceptLeader sender term output = s at haccept hrole hlocal' ⊢
  dsimp only
  by_cases hcovered : cut.index ≤ s.1.state.commitIndex
  · rw [if_pos hcovered]
    exact haccept.trans (.same haccept.sound rfl rfl)
  rw [if_neg hcovered]
  have hoffered : ∀ (transfer : SnapshotTransfer) (output' : Output C),
      transfer.snapshot = cut → output'.installedSnapshot = s.2.installedSnapshot →
      Moves r output ({ s.1 with incomingSnapshot := some { transfer, term, request } }, output') := by
    rintro transfer output' rfl hinstalled
    have hawait := await_moves haccept.sound s.2 { transfer, term, request }
      ⟨hrole, Nat.lt_of_not_le hcovered, hindex, hterm, hlocal'.1, hlocal'.2⟩
    exact (haccept.trans hawait).trans (.same hawait.sound rfl hinstalled)
  cases s.1.incomingSnapshot with
  | none => exact hoffered _ _ rfl rfl
  | some pending =>
    dsimp only
    split_ifs
    · exact haccept.trans (.same haccept.sound rfl rfl)
    · exact haccept
    · exact hoffered _ _ rfl rfl

/-- What a whole transition does: it leaves the base at or below the old commit index, or installs
a cut above it. -/
structure Delivers (r : Raft C) (s : Stepped C) : Prop where
  sound : Sound s.1
  frame : Frame r s.1
  limits : s.1.limits = r.limits
  reach : s.2.installedSnapshot = none ∧ s.1.state.baseIndex ≤ r.state.commitIndex ∨
    ∃ cut, s.2.installedSnapshot = some cut ∧ s.1.state.snapshot = some cut ∧
      s.1.state.commitIndex = cut.index ∧ r.state.commitIndex < cut.index

theorem Moves.delivers {s : Stepped C} (h : Moves r output s) (hsound : Sound r)
    (hnone : output.installedSnapshot = none) : Delivers r s := by
  refine ⟨h.sound, h.frame, h.limits, .inl ⟨h.installed.trans hnone, ?_⟩⟩
  unfold baseIndex
  rw [h.snapshot]
  exact hsound.recoverable.base_le

theorem Delivers.trans {s s' : Stepped C} (h : Delivers r s) (h' : Moves s.1 s.2 s')
    (hcommit : s'.1.state.commitIndex = s.1.state.commitIndex) : Delivers r s' := by
  have hbase : s'.1.state.baseIndex = s.1.state.baseIndex := by
    unfold baseIndex
    rw [h'.snapshot]
  refine ⟨h'.sound, h.frame.trans h'.frame, h'.limits.trans h.limits, ?_⟩
  rw [h'.installed, h'.snapshot, hcommit, hbase]
  exact h.reach

theorem compact_delivers (h : Sound r) (hnone : output.installedSnapshot = none)
    (hlocal : Local r cut)
    (hvalid : r.state.snapshot = some cut ∨ cut.index ≤ r.state.commitIndex ∧
      r.state.termAt cut.index = some cut.term) : Delivers r (r.compact cut, output) := by
  unfold Raft.compact
  by_cases hsame : r.state.snapshot = some cut
  · rw [if_pos hsame]
    exact (Moves.refl h).delivers h hnone
  rw [if_neg hsame]
  obtain ⟨hcommit, hterm⟩ := hvalid.resolve_left hsame
  obtain ⟨hbase, hlast⟩ := PersistentState.termAt_le hterm
  -- the last index does not move
  have hindex : cut.index + (r.state.entries.drop (cut.index - r.state.baseIndex)).length =
      r.state.lastIndex := by
    rw [length_drop]
    unfold PersistentState.lastIndex at hlast ⊢
    omega
  refine ⟨⟨?_, h.standing, h.leading, ?_, ?_, ?_, ?_⟩, ⟨rfl, rfl, rfl, rfl, le_rfl, ?_⟩, rfl,
    .inl ⟨hnone, hcommit⟩⟩
  · exact h.recoverable.cut hbase hterm hlocal.1 hlocal.2 hcommit h.recoverable.commit_le
  · intro hrole
    change r.progress.map _ = ∅
    rw [h.idle hrole]
    exact Std.ExtTreeMap.map_eq_empty_iff.mpr rfl
  · change (r.progress.map _)[r.id]? = none
    rw [Std.ExtTreeMap.getElem?_map, h.others, map_none]
  · intro peer progress hp
    change (r.progress.map _)[peer]? = some progress at hp
    rw [Std.ExtTreeMap.getElem?_map] at hp
    obtain ⟨old, hold, rfl⟩ := map_eq_some_iff.mp hp
    obtain ⟨hmatched, hnext, -⟩ := h.tracked peer old hold
    refine ⟨Nat.lt_succ_self _, ?_, fun flight hmem => by cases hmem⟩
    change old.matched + 1 ≤
      cut.index + (r.state.entries.drop (cut.index - r.state.baseIndex)).length + 1
    omega
  · exact fun pending hp => { h.awaited pending hp with }
  · exact fun hk => by cases hk

theorem installSnapshot_delivers (h : Sound r) {pending : IncomingSnapshot}
    (hpending : r.incomingSnapshot = some pending) (hterm : pending.term = r.state.term) :
    ∃ s, r.installSnapshot output = .ok s ∧ Delivers r s := by
  obtain ⟨hrole, hahead, hindex, hcut, hdomain, hconfiguration⟩ := h.awaited pending hpending
  unfold installSnapshot
  rw [hpending]
  dsimp only
  rw [if_neg (by omega)]
  refine ⟨_, rfl, .ofFollower ?_ hrole (h.idle (by rw [hrole]; decide)) ?_,
    ⟨rfl, rfl, rfl, rfl, hahead.le, ?_⟩, rfl, .inr ⟨_, rfl, rfl, rfl, hahead⟩⟩
  · unfold adoptSnapshot
    dsimp only
    split_ifs with hmatch
    · obtain ⟨hbase, hlast⟩ := termAt_le hmatch
      exact h.recoverable.cut hbase hmatch hdomain hconfiguration le_rfl hlast
    · exact h.recoverable.restart hindex (hcut.trans hterm.le) hdomain hconfiguration
  · exact fun other hother => by cases hother
  · exact fun hk => by cases hk

/-! ## Admission -/

/-- What admission leaves for the transition. -/
def Accepts (r : Raft C) : Event C → Prop
  | .electionTimeout => r.isVoter r.id = true
  | .livenessTimeout => r.isVoter r.id = true
  | .propose _ => r.role = .leader ∧ r.state.lastIndex + 1 < u64Max ∧
      r.state.entries.length + 1 ≤ r.limits.maxLogEntries
  | .proposeBatch commands => r.role = .leader ∧ r.state.lastIndex + commands.length < u64Max ∧
      r.state.entries.length + commands.length ≤ r.limits.maxLogEntries
  | .compact cut => Local r cut ∧ (r.state.snapshot = some cut ∨
      cut.index ≤ r.state.commitIndex ∧ r.state.termAt cut.index = some cut.term)
  | .snapshotReady _ => ∃ pending, r.incomingSnapshot = some pending ∧
      pending.term = r.state.term
  | .receive envelope =>
    match envelope.message with
    | .requestVote term _ _ => term ≠ 0 ∧ r.isVoter envelope.sender = true
    | .vote term _ => term ≠ 0
    | .append term _ prev prevTerm es _ => Acceptable r term prev prevTerm es
    | .installSnapshot term _ cut => Local r cut ∧ cut.term ≤ term
    | _ => True
  | _ => True

theorem validateProposalCount_accepts {count : ℕ}
    (h : r.validateProposalCount count = .ok u) : r.role = .leader ∧
      r.state.lastIndex + count < u64Max ∧
      r.state.entries.length + count ≤ r.limits.maxLogEntries := by
  unfold validateProposalCount at h
  simp only [refuse_bind_eq_ok, refuse_eq_ok, decide_eq_false_iff_not, not_not, Nat.not_lt,
    Nat.not_le] at h
  obtain ⟨hrole, -, hcount, -, hroom, hlast⟩ := h
  exact ⟨hrole, hlast, by omega⟩

theorem validateSnapshot_local (h : r.validateSnapshot cut = .ok u) : Local r cut := by
  unfold validateSnapshot at h
  simp only [refuse_bind_eq_ok, refuse_eq_ok, decide_eq_false_iff_not, not_not] at h
  exact h

end

theorem validateAppend_acceptable
    (h : r.validateAppend term prev prevTerm es = .ok u) : Acceptable r term prev prevTerm es := by
  unfold validateAppend at h
  simp only [refuse_bind_eq_ok, decide_eq_false_iff_not, Bool.not_eq_false', Nat.not_le] at h
  obtain ⟨-, -, hlast, hterms, hmatching⟩ := h
  refine ⟨hlast, hterms, fun hle hmatch => ?_⟩
  rw [if_pos ⟨hle, hmatch⟩] at hmatching
  simp only [refuse_bind_eq_ok, decide_eq_false_iff_not, Nat.not_lt] at hmatching
  exact ⟨hmatching.1, by cases u; exact hmatching.2⟩

theorem validateEvent_accepts {event : Event C} (h : r.validateEvent event = .ok u) :
    Accepts r event := by
  unfold validateEvent at h
  obtain ⟨_, -, hevent⟩ := bind_eq_ok.mp h
  cases event with
  | electionTimeout => simpa [Accepts] using hevent
  | livenessTimeout =>
    dsimp only at hevent
    rw [refuse_bind_eq_ok] at hevent
    simpa [Accepts] using hevent.1
  | propose command | proposeBatch command => exact validateProposalCount_accepts hevent
  | compact cut =>
    obtain ⟨_, hlocal, hcut⟩ := bind_eq_ok.mp hevent
    refine ⟨validateSnapshot_local hlocal, ?_⟩
    rw [refuse_eq_ok, decide_eq_false_iff_not] at hcut
    by_cases hsame : r.state.snapshot = some cut
    · exact .inl hsame
    · have hinside : ¬ (cut.index ≤ r.state.baseIndex ∨ r.state.commitIndex < cut.index ∨
          r.state.termAt cut.index ≠ some cut.term) := fun hout => hcut ⟨hsame, hout⟩
      rw [not_or, not_or, Nat.not_lt, not_not] at hinside
      exact .inr hinside.2
  | snapshotReady id =>
    dsimp only at hevent
    rw [refuse_eq_ok, Bool.not_eq_false'] at hevent
    cases hpending : r.incomingSnapshot with
    | none =>
      rw [hpending] at hevent
      cases hevent
    | some pending =>
      rw [hpending] at hevent
      exact ⟨pending, hpending, (of_decide_eq_true hevent).2.1⟩
  | receive envelope =>
    unfold validateReceive at hevent
    obtain ⟨_, henvelope, hmessage⟩ := bind_eq_ok.mp hevent
    unfold validateEnvelope at henvelope
    simp only [refuse_bind_eq_ok] at henvelope
    obtain ⟨-, -, -, -, hvoter, hzero, -⟩ := henvelope
    unfold Accepts
    dsimp only
    cases hkind : envelope.message with
    | requestVote term lastIndex lastTerm =>
      rw [hkind] at hvoter hzero
      exact ⟨of_decide_eq_false hzero, by simpa using hvoter⟩
    | vote term granted =>
      rw [hkind] at hzero
      exact of_decide_eq_false hzero
    | append term request prev prevTerm es leaderCommit =>
      rw [hkind] at hmessage
      exact validateAppend_acceptable hmessage
    | installSnapshot term request cut =>
      rw [hkind] at hmessage
      unfold validateOffer at hmessage
      obtain ⟨_, hlocal, hrest⟩ := bind_eq_ok.mp hmessage
      rw [refuse_bind_eq_ok, decide_eq_false_iff_not, Nat.not_lt] at hrest
      exact ⟨validateSnapshot_local hlocal, hrest.1⟩
    | _ => trivial
  | _ => trivial

/-! ## Transitions -/

/-- The cuts an event carries have a 64-bit index. -/
def Bounded : Event C → Prop
  | .receive envelope =>
    match envelope.message with
    | .installSnapshot _ _ cut => cut.index ≤ u64Max
    | _ => True
  | _ => True

theorem receive_settles (h : Sound r) {envelope : Envelope C}
    (haccepts : Accepts r (.receive envelope)) (hbounded : Bounded (.receive envelope)) :
    Settles (r.receive envelope output) (Moves r output) := by
  have hfollow : Moves r output (if r.state.term < envelope.message.term then
      r.follow envelope.message.term else r, output) ∧
      (if r.state.term < envelope.message.term then
        r.follow envelope.message.term else r).log = r.log ∧
      r.state.term ≤ (if r.state.term < envelope.message.term then
        r.follow envelope.message.term else r).state.term := by
    split_ifs
    · exact ⟨follow_moves h output _, follow_log r _, follow_term_le r _⟩
    · exact ⟨.refl h, rfl, le_rfl⟩
  unfold receive
  dsimp only
  generalize (if r.state.term < envelope.message.term then
    r.follow envelope.message.term else r) = r₁ at hfollow ⊢
  obtain ⟨hmoves, hlog, hterm⟩ := hfollow
  have hsound : Sound r₁ := hmoves.sound
  have hconfiguration : r₁.state.configuration = r.state.configuration := hmoves.frame.configuration
  refine .after hmoves ?_
  unfold Accepts at haccepts
  unfold Bounded at hbounded
  cases hmessage : envelope.message with
  | preVoteRequest prospectiveTerm round lastIndex lastTerm => exact .ok (.same hsound rfl rfl)
  | preVoteReply term prospectiveTerm round granted => exact preVoteReply_settles hsound _ _ _ _
  | quorumProbe term round => exact .ok (quorumProbe_moves hsound output _ _ _)
  | quorumReply term round => exact .ok (quorumReply_moves hsound output _ _ _)
  | timeoutNow term round lastIndex lastTerm => exact timeoutNow_settles hsound _ _ _ _
  | requestVote term lastIndex lastTerm =>
    simp only [hmessage] at haccepts
    refine .ok (receiveRequestVote_moves hsound output haccepts.1 ?_ _ _)
    unfold isVoter
    rw [hconfiguration]
    exact haccepts.2
  | vote term granted =>
    simp only [hmessage] at haccepts
    exact receiveVote_settles hsound haccepts _ _
  | append term request prev prevTerm es leaderCommit =>
    simp only [hmessage] at haccepts
    exact .ok (receiveAppend_moves hsound output _ (haccepts.congr hlog hterm) _ _)
  | appended term request success conflictNext => exact receiveAppended_settles hsound _ _ _ _ _
  | installSnapshot term request cut =>
    simp only [hmessage] at haccepts hbounded
    refine .ok (offerSnapshot_moves hsound output _ ?_ haccepts.2
      (lt_of_le_of_ne hbounded cut.index_ne_max) _)
    unfold Local
    rw [hconfiguration]
    exact haccepts.1
  | snapshotInstalled term request => exact receiveSnapshotInstalled_settles hsound _ _ _

theorem transition_settles (h : Sound r) (hnone : output.installedSnapshot = none)
    {event : Event C} (haccepts : Accepts r event) (hbounded : Bounded event) :
    Settles (r.transition event output) (Delivers r) := by
  have hmoves : ∀ {x : Except Error (Stepped C)}, Settles x (Moves r output) →
      Settles x (Delivers r) := fun hx => hx.mono fun _ hs => hs.delivers h hnone
  unfold transition
  cases event with
  | electionTimeout => exact hmoves (campaign_settles h haccepts)
  | livenessTimeout =>
    have hstop : Moves r output ({ r with handoff := none }, output) := .same h rfl rfl
    exact hmoves (.after hstop (livenessTimeout_settles hstop.sound haccepts))
  | heartbeat =>
    dsimp only
    split_ifs
    · refine hmoves ((broadcast_settles h true).bind fun s hs => ?_)
      exact .ok (hs.trans (.same hs.sound rfl retryQuorumProbe_installed))
    · exact hmoves (.ok (.refl h))
  | transferLeadership target => exact hmoves (startHandoff_settles h target)
  | abortLeadershipTransfer id => exact hmoves (.ok (.same h rfl rfl))
  | propose command | proposeBatch command =>
    exact hmoves (appendProposals_settles h haccepts.1 haccepts.2.1 haccepts.2.2)
  | receive envelope => exact hmoves (receive_settles h haccepts hbounded)
  | compact cut => exact .ok (compact_delivers h hnone haccepts.1 haccepts.2)
  | snapshotReady id =>
    obtain ⟨pending, hpending, hterm⟩ := haccepts
    exact .inl (installSnapshot_delivers h hpending hterm)
  | snapshotFailed id => exact hmoves (.ok (cancel_moves h output))

end FrankenGraph.Order

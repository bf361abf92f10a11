import FrankenGraph.Order.Admission
import FrankenGraph.Order.ReadIndex

/-!
# One machine over whole runs

A machine that `Raft::new` or `Raft::recover` built, driven by any sequence of `step`, `persisted`,
`begin_read_index`, `configure_append_pipeline` and `publication_failed` calls, with whatever
envelopes. The outputs that `persisted` released are kept in order.

Results:
* `no_input_poisons`: an admitted event succeeds or exhausts a counter.
* `publication_sound`: a publication without a write changed nothing, and every published state can
  be recovered.
* `delivery_gap_free`: the released records have consecutive indices.
-/

namespace FrankenGraph.Order

open List Option Raft PersistentState

variable {C : Type} [DecidableEq C] {r r' : Raft C}

/-! ## Steps -/

/-- What a successful step of `r` to `r'` published as `p`. -/
structure Publishes (r r' : Raft C) (p : Persistence C) : Prop where
  sound : Sound r'
  id : r'.id = r.id
  limits : r'.limits = r.limits
  live : r'.poisoned = false
  state : p.state = r'.state
  unchanged : p.requiresWrite = false → r'.state = r.state
  commit : r.state.commitIndex ≤ r'.state.commitIndex
  pending : ∃ id output, r'.pending = some (id, output) ∧
    output.committed = r'.committedRange r.state.commitIndex ∧
    (output.installedSnapshot = none ∧ r'.state.baseIndex ≤ r.state.commitIndex ∨
      ∃ cut, output.installedSnapshot = some cut ∧ r'.state.snapshot = some cut ∧
        r'.state.commitIndex = cut.index ∧ r.state.commitIndex < cut.index)

omit [DecidableEq C] in
theorem driveHandoff_state (output : Output C) (retry : Bool) :
    (r.driveHandoff output retry).1.state = r.state := by
  unfold driveHandoff
  cases r.handoff with
  | none => rfl
  | some pending =>
    dsimp only
    split_ifs <;> rfl

omit [DecidableEq C] in
theorem Sound.fenced (h : Sound r) (generation : ℕ) : Sound (r.fenced generation) :=
  (h.flagged r.initialized false).congr rfl

variable {event : Event C}

theorem Accepts.fenced (h : Accepts r event) (generation : ℕ) :
    Accepts (r.fenced generation) event := by
  cases event with
  | receive envelope =>
    unfold Accepts at h ⊢
    dsimp only at h ⊢
    cases hmessage : envelope.message with
    | append term request prev prevTerm es leaderCommit =>
      simp only [hmessage] at h
      exact h.congr rfl le_rfl
    | _ =>
      simp only [hmessage] at h
      exact h
  | _ => exact h

/-- An admitted event succeeds or exhausts a counter. -/
theorem step_publishes (h : Sound r) (havailable : r.available = .ok ())
    (hvalid : r.validateEvent event = .ok ()) (hbounded : Bounded event) :
    (∃ p r', r.step event = (.ok p, r') ∧ Publishes r r' p) ∨
      ∃ r', r.step event = (.error .counterExhausted, r') ∧ r'.state = r.state ∧
        (r' = r ∨ r'.poisoned = true) := by
  have hadmitted : (do r.available; r.validateEvent event : Except Error Unit) = .ok () := by
    rw [havailable]
    exact hvalid
  have haccepts := validateEvent_accepts hvalid
  unfold step
  rw [hadmitted]
  dsimp only
  cases hgeneration : checkedAdd r.generation 1 with
  | none => exact .inr ⟨r, rfl, rfl, .inl rfl⟩
  | some generation =>
    have hsettles := transition_settles (h.fenced generation)
      (show r.freshOutput.installedSnapshot = none from rfl) (haccepts.fenced generation) hbounded
    rcases hsettles with ⟨s, hok, hdelivers⟩ | herror
    · left
      change (r.fenced generation).transition event r.freshOutput = .ok s at hok
      dsimp only
      unfold fenced at hok
      rw [hok]
      have hdrive := driveHandoff_moves hdelivers.sound s.2 (retryHandoff event)
      have hstate : (s.1.driveHandoff s.2 (retryHandoff event)).1.state = s.1.state :=
        driveHandoff_state _ _
      have hend := hdelivers.trans hdrive (by rw [hstate])
      obtain ⟨moved, collected⟩ := s
      dsimp only at hend ⊢
      generalize moved.driveHandoff collected (retryHandoff event) = e at hend ⊢
      refine ⟨_, _, rfl, hend.sound.congr rfl, hend.frame.id, hend.limits, rfl, rfl,
        fun hwrite => hend.frame.state_eq hwrite, hend.frame.commit, _, _, rfl, rfl, hend.reach⟩
    · right
      change (r.fenced generation).transition event r.freshOutput = .error .counterExhausted at herror
      dsimp only
      unfold fenced at herror
      rw [herror]
      exact ⟨_, rfl, rfl, .inr rfl⟩

/-- A step either publishes, or leaves the state and, unless it poisons the machine, everything
else. -/
theorem step_cases (h : Sound r) (hbounded : Bounded event) :
    (∃ p r', r.step event = (.ok p, r') ∧ r.available = .ok () ∧ Publishes r r' p) ∨
      ∃ error r', r.step event = (.error error, r') ∧ r'.state = r.state ∧
        (r' = r ∨ r'.poisoned = true) := by
  cases hadmitted : (do r.available; r.validateEvent event : Except Error Unit) with
  | error error =>
    right
    unfold step
    rw [hadmitted]
    exact ⟨error, r, rfl, rfl, .inl rfl⟩
  | ok u =>
    obtain ⟨_, havailable, hvalid⟩ := bind_eq_ok.mp hadmitted
    rcases step_publishes h havailable hvalid hbounded with ⟨p, r', hok, hp⟩ | ⟨r', herror, hrest⟩
    · exact .inl ⟨p, r', hok, havailable, hp⟩
    · exact .inr ⟨_, r', herror, hrest⟩

/-! ## Runs -/

/-- The calls a host makes on one machine. -/
inductive Call (C : Type)
  | step (event : Event C)
  | persisted (id : PersistenceId)
  | beginReadIndex
  | configureAppendPipeline (maximum : ℕ)
  | publicationFailed

/-- The output a call releases, and the machine after it. A refused call changes nothing but what
`step` says. -/
def Raft.call (r : Raft C) : Call C → Option (Output C) × Raft C
  | .step event => (none, (r.step event).2)
  | .persisted id =>
    match r.persisted id with
    | .ok (output, r') => (some output, r')
    | .error _ => (none, r)
  | .beginReadIndex =>
    match r.beginReadIndex with
    | .ok (_, r') => (none, r')
    | .error _ => (none, r)
  | .configureAppendPipeline maximum =>
    match r.configureAppendPipeline maximum with
    | .ok r' => (none, r')
    | .error _ => (none, r)
  | .publicationFailed => (none, r.publicationFailed)

/-- The numbers of a call fit their 64-bit types. -/
def Call.Fits : Call C → Prop
  | .step event => Bounded event
  | _ => True

/-- A machine just built. -/
def Built (r : Raft C) : Prop :=
  (∃ id configuration limits incarnation, Raft.new id configuration limits incarnation = .ok r) ∨
    ∃ id state limits incarnation, Raft.recover id state limits incarnation = .ok r

/-- Calls on `start` released these outputs and led to a machine. -/
inductive Ran (start : Raft C) : List (Output C) → Raft C → Prop
  | start : Ran start [] start
  | call {released : List (Output C)} {r : Raft C} (c : Call C) (hrun : Ran start released r)
    (hfits : c.Fits) : Ran start (released ++ (r.call c).1.toList) (r.call c).2

/-! ## Delivery -/

/-- An application at `cursor` takes an output: the installed snapshot moves it forward, and the
records must follow it without a gap. -/
def advance (cursor : ℕ) (output : Output C) : Option ℕ := do
  let cursor ← match output.installedSnapshot with
    | none => some cursor
    | some cut => if cursor < cut.index then some cut.index else none
  if output.committed.map Committed.index = List.range' (cursor + 1) output.committed.length then
    some (cursor + output.committed.length)
  else none

section

omit [DecidableEq C]

theorem committedRange_index (hbase : r.state.baseIndex ≤ r.state.commitIndex)
    (hcommit : r.state.commitIndex ≤ r.state.lastIndex) {after : ℕ}
    (hafter : after ≤ r.state.commitIndex) :
    (r.committedRange after).map Committed.index = range' (max after r.state.baseIndex + 1)
        (r.state.commitIndex - max after r.state.baseIndex) := by
  unfold lastIndex at hcommit
  refine ext_getElem? fun i => ?_
  simp only [committedRange, getElem?_map, getElem?_mapIdx, getElem?_drop, getElem?_take]
  by_cases hi : i < r.state.commitIndex - max after r.state.baseIndex
  · have hlt : max after r.state.baseIndex - r.state.baseIndex + i < r.state.entries.length := by
      omega
    rw [if_pos (by omega), getElem?_eq_getElem hlt, getElem?_range' hi]
    simp only [map_some, some.injEq]
    omega
  · rw [if_neg (by omega), getElem?_eq_none (by rw [length_range']; omega)]
    rfl

/-- The pending output of a step continues the delivery at the old commit index. -/
theorem Publishes.advance {p : Persistence C} (h : Publishes r r' p) :
    ∃ id output, r'.pending = some (id, output) ∧
      Order.advance r.state.commitIndex output = some r'.state.commitIndex ∧
      (output.installedSnapshot = none → r'.state.baseIndex ≤ r.state.commitIndex) := by
  obtain ⟨id, output, hpending, hcommitted, hreach⟩ := h.pending
  have hindex := committedRange_index h.sound.recoverable.base_le h.sound.recoverable.commit_le
    h.commit
  rw [← hcommitted] at hindex
  have hlength := congrArg length hindex
  rw [length_map, length_range'] at hlength
  refine ⟨id, output, hpending, ?_, fun hnone => ?_⟩
  · unfold Order.advance
    rcases hreach with ⟨hnone, hbase⟩ | ⟨cut, hcut, hsnapshot, hcommit, hlt⟩
    · rw [hnone]
      rw [max_eq_left hbase] at hindex hlength
      have := h.commit
      simp only [bind_eq_bind, bind_some, hlength, hindex, if_true]
      rw [Nat.add_sub_of_le h.commit]
    · have hbase : r'.state.baseIndex = cut.index := by
        unfold baseIndex
        rw [hsnapshot]
        rfl
      rw [hcut]
      rw [hbase, hcommit, max_eq_right hlt.le, Nat.sub_self] at hindex hlength
      simp only [bind_eq_bind, if_pos hlt, bind_some, hlength, hindex, if_true,
        Nat.add_zero, hcommit]
  · rcases hreach with ⟨-, hbase⟩ | ⟨cut, hcut, -⟩
    · exact hbase
    · cases hnone.symm.trans hcut

/-- Where the delivery of a live machine stands: at its commit index, or one pending output
before it. -/
def Rests (cursor : ℕ) (r : Raft C) : Prop :=
  match r.pending with
  | none => r.state.commitIndex = cursor
  | some (_, output) => advance cursor output = some r.state.commitIndex ∧
      (output.installedSnapshot = none → r.state.baseIndex ≤ cursor)

theorem Built.sound (h : Built r) : Sound r ∧ r.poisoned = false ∧ r.pending = none := by
  have hrecover : ∀ {id : MemberId} {state : PersistentState C} {limits : Limits} {incarnation : ℕ}
      {r : Raft C}, recover id state limits incarnation = .ok r →
      Sound r ∧ r.poisoned = false ∧ r.pending = none := by
    intro id state limits incarnation r hok
    have hstate := (recover_ok_iff incarnation).mp ⟨r, hok⟩
    unfold recover at hok
    simp only [refuse_bind_eq_ok] at hok
    cases hok.2.2.2.2.2
    exact ⟨.ofFollower hstate rfl rfl (fun pending hp => by cases hp), rfl, rfl⟩
  rcases h with ⟨id, configuration, limits, incarnation, hok⟩ | ⟨id, state, limits, incarnation, hok⟩
  · unfold new at hok
    obtain ⟨node, hnode, hok⟩ := bind_eq_ok.mp hok
    cases hok
    obtain ⟨hsound, hlive, hpending⟩ := hrecover hnode
    exact ⟨hsound.flagged false node.logChanged, hlive, hpending⟩
  · exact hrecover hok

theorem persisted_ok {id : PersistenceId} {output : Output C}
    (h : r.persisted id = .ok (output, r')) : r.poisoned = false ∧
      r.pending = some (id, output) ∧ r' = { r with pending := none, initialized := true } := by
  unfold persisted at h
  split_ifs at h with hlive
  cases hpending : r.pending with
  | none =>
    rw [hpending] at h
    cases h
  | some pending =>
    obtain ⟨expected, held⟩ := pending
    rw [hpending] at h
    dsimp only at h
    split_ifs at h with hid
    cases h
    exact ⟨Bool.eq_false_of_not_eq_true hlive, by rw [hid], rfl⟩

theorem beginReadIndex_ok {round : ReadIndexRound} (h : r.beginReadIndex = .ok (round, r')) :
    ∃ request, r' = { r with request } := by
  unfold beginReadIndex at h
  obtain ⟨_, -, h⟩ := bind_eq_ok.mp h
  simp only [refuse_bind_eq_ok] at h
  obtain ⟨-, -, -, h⟩ := h
  split at h
  · cases h
  · cases h
    exact ⟨_, rfl⟩

theorem configureAppendPipeline_ok {maximum : ℕ} (h : r.configureAppendPipeline maximum = .ok r') :
    r' = { r with appendWindow := maximum } := by
  unfold configureAppendPipeline at h
  obtain ⟨_, -, h⟩ := bind_eq_ok.mp h
  simp only [refuse_bind_eq_ok] at h
  cases h.2.2
  rfl

end

theorem step_of_poisoned (h : r.poisoned = true) (event : Event C) :
    r.step event = (.error .recoveryRequired, r) := by
  have hunavailable : (do r.available; r.validateEvent event : Except Error Unit) =
      .error .recoveryRequired := by
    unfold available
    rw [if_pos h]
    rfl
  unfold step
  rw [hunavailable]

/-- A call keeps a live machine sound, moves its commit index up, and releases what the delivery
waits for. -/
theorem call_keeps (c : Call C) (hfits : c.Fits) {cursor : ℕ}
    (h : r.poisoned = false → Sound r ∧ Rests cursor r) :
    r.state.commitIndex ≤ (r.call c).2.state.commitIndex ∧
      ∃ next, (r.call c).1.toList.foldlM advance cursor = some next ∧
        ((r.call c).2.poisoned = false → Sound (r.call c).2 ∧ Rests next (r.call c).2) := by
  cases c with
  | step event =>
    unfold call
    dsimp only
    cases hlive : r.poisoned with
    | true =>
      rw [step_of_poisoned hlive]
      exact ⟨le_rfl, cursor, rfl, fun hfalse => by cases hlive.symm.trans hfalse⟩
    | false =>
      obtain ⟨hsound, hrests⟩ := h hlive
      rcases step_cases hsound hfits with ⟨p, r', hok, havailable, hp⟩ | ⟨error, r', herror, hst, hkept⟩
      · rw [hok]
        refine ⟨hp.commit, cursor, rfl, fun _ => ⟨hp.sound, ?_⟩⟩
        unfold Rests at hrests ⊢
        rw [available_pending havailable] at hrests
        obtain ⟨id, output, hpending, hadvance, hbase⟩ := hp.advance
        rw [hpending]
        dsimp only at hrests ⊢
        rw [← hrests]
        exact ⟨hadvance, hbase⟩
      · rw [herror]
        refine ⟨(congrArg commitIndex hst).ge, cursor, rfl, fun hfalse => ?_⟩
        rcases hkept with rfl | hpoisoned
        · exact ⟨hsound, hrests⟩
        · cases hpoisoned.symm.trans hfalse
  | persisted id =>
    unfold call
    dsimp only
    cases hok : r.persisted id with
    | error error => exact ⟨le_rfl, cursor, rfl, h⟩
    | ok released =>
      obtain ⟨output, r'⟩ := released
      obtain ⟨hlive, hpending, rfl⟩ := persisted_ok hok
      obtain ⟨hsound, hrests⟩ := h hlive
      unfold Rests at hrests
      rw [hpending] at hrests
      refine ⟨le_rfl, r.state.commitIndex, ?_, fun _ => ⟨?_, rfl⟩⟩
      · dsimp only [toList_some]
        rw [foldlM_cons, hrests.1]
        rfl
      · exact (hsound.flagged true r.logChanged).congr rfl
  | beginReadIndex =>
    unfold call
    dsimp only
    cases hok : r.beginReadIndex with
    | error error => exact ⟨le_rfl, cursor, rfl, h⟩
    | ok begun =>
      obtain ⟨round, r'⟩ := begun
      obtain ⟨request, rfl⟩ := beginReadIndex_ok hok
      exact ⟨le_rfl, cursor, rfl, fun hlive => ⟨(h hlive).1.congr rfl, (h hlive).2⟩⟩
  | configureAppendPipeline maximum =>
    unfold call
    dsimp only
    cases hok : r.configureAppendPipeline maximum with
    | error error => exact ⟨le_rfl, cursor, rfl, h⟩
    | ok r' =>
      obtain rfl := configureAppendPipeline_ok hok
      exact ⟨le_rfl, cursor, rfl, fun hlive => ⟨(h hlive).1.congr rfl, (h hlive).2⟩⟩
  | publicationFailed => exact ⟨le_rfl, cursor, rfl, fun hlive => by cases hlive⟩

/-- Along every run the delivery goes on without a gap and the machine stays sound. -/
theorem Ran.keeps {start : Raft C} {released : List (Output C)} (h : Ran start released r)
    (hbuilt : Built start) :
    ∃ cursor, released.foldlM advance start.state.commitIndex = some cursor ∧
      (r.poisoned = false → Sound r ∧ Rests cursor r) := by
  induction h with
  | start =>
    obtain ⟨hsound, -, hpending⟩ := hbuilt.sound
    refine ⟨start.state.commitIndex, rfl, fun _ => ⟨hsound, ?_⟩⟩
    unfold Rests
    rw [hpending]
  | call c hrun hfits ih =>
    obtain ⟨cursor, hcursor, hkept⟩ := ih
    obtain ⟨-, next, hnext, hlive⟩ := call_keeps c hfits hkept
    refine ⟨next, ?_, hlive⟩
    rw [foldlM_append, hcursor]
    exact hnext

section

omit [DecidableEq C]

theorem available_live {u : Unit} (h : r.available = .ok u) : r.poisoned = false := by
  unfold available at h
  split_ifs at h with hpoisoned
  exact Bool.eq_false_of_not_eq_true hpoisoned

/-! ## The sending loop -/

/-- The loop of `send_append` (`pipeline.rs` L86-137) with the test of its capacity at every
pass; `none` when `fuel` passes do not end it. -/
def sendLoop (peer : MemberId) : (fuel : ℕ) → Raft C → Output C → Option (Except Error (Stepped C))
  | 0, _, _ => none
  | fuel + 1, r, output =>
    match r.progress[peer]? with
    | none => some (.error .invalidRecoveryState)
    | some progress =>
      let capacity := if progress.probing then 1 else r.appendWindow
      if capacity ≤ progress.inFlight.length ∨ progress.inFlight.head?.any InFlight.isSnapshot ∨
          r.state.lastIndex < progress.next ∧ progress.inFlight ≠ [] then some (.ok (r, output))
      else
        match checkedAdd r.request 1 with
        | none => some (.error .counterExhausted)
        | some request =>
          let r := { r with request }
          match r.nextFlight progress.next with
          | none => some (.error .invalidRecoveryState)
          | some flight =>
            match r.emitFlight peer flight output with
            | .error error => some (.error error)
            | .ok (r, output) =>
              let r := { r with progress := r.progress.modify peer fun progress =>
                { progress with
                  next := if flight.isSnapshot then progress.next else flight.last + 1
                  inFlight := progress.inFlight ++ [flight] } }
              sendLoop peer fuel r output

/-- Emitting a flight keeps the window of the peer. -/
theorem emitFlight_window {peer : MemberId} {flight : InFlight} {output : Output C} {s : Stepped C}
    (h : r.emitFlight peer flight output = .ok s) {progress : Progress}
    (hp : r.progress[peer]? = some progress) : s.1.appendWindow = r.appendWindow ∧
      ∃ progress', s.1.progress[peer]? = some progress' ∧ progress'.probing = progress.probing ∧
        progress'.inFlight = progress.inFlight := by
  unfold emitFlight at h
  cases hm : r.flightMessage flight with
  | none =>
    rw [hm] at h
    cases h
  | some message =>
    rw [hm] at h
    cases h
    dsimp only
    split_ifs
    · exact ⟨rfl, progress, hp, rfl, rfl⟩
    · refine ⟨rfl, { progress with sentCommit := r.state.commitIndex }, ?_, rfl, rfl⟩
      rw [Std.ExtTreeMap.getElem?_modify_self, hp]
      rfl

/-- The loop ends within one pass more than the room of the window. -/
theorem sendLoop_ends {peer : MemberId} (room : ℕ) : ∀ {r : Raft C} {output : Output C}
    {progress : Progress}, r.progress[peer]? = some progress →
      room = (if progress.probing then 1 else r.appendWindow) - progress.inFlight.length →
      sendLoop peer (room + 1) r output = some (sendWindow peer room r output) := by
  induction room with
  | zero =>
    intro r output progress hp hroom
    rw [sendLoop, hp, sendWindow]
    dsimp only
    rw [if_pos (.inl (by omega))]
  | succ room ih =>
    intro r output progress hp hroom
    rw [sendLoop, hp, sendWindow, hp]
    dsimp only
    by_cases hstop : progress.inFlight.head?.any InFlight.isSnapshot = true ∨
        r.state.lastIndex < progress.next ∧ progress.inFlight ≠ []
    · rw [if_pos (.inr hstop), if_pos hstop]
    · rw [if_neg (not_or.mpr ⟨by omega, hstop⟩), if_neg hstop]
      cases checkedAdd r.request 1 with
      | none => rfl
      | some request =>
        dsimp only
        cases nextFlight { r with request } progress.next with
        | none => rfl
        | some flight =>
          dsimp only
          cases hemit : emitFlight { r with request } peer flight output with
          | error error => rfl
          | ok s =>
            obtain ⟨hwindow, progress', hp', hprobing, hinFlight⟩ :=
              emitFlight_window (r := { r with request }) hemit hp
            obtain ⟨r₁, output₁⟩ := s
            refine @ih _ _ { progress' with
              next := if flight.isSnapshot then progress'.next else flight.last + 1
              inFlight := progress'.inFlight ++ [flight] } ?_ ?_
            · dsimp only at hp' ⊢
              rw [Std.ExtTreeMap.getElem?_modify_self, hp']
              rfl
            · dsimp only at hwindow ⊢
              rw [hprobing, hinFlight, hwindow, length_append, length_singleton]
              omega

/-! ## No input poisons a live machine -/

/-- The positions `committed_range` slices after a step from `r` to `r'`. -/
def SliceInRange (r r' : Raft C) : Prop :=
  r'.state.baseIndex ≤ max r.state.commitIndex r'.state.baseIndex ∧
    max r.state.commitIndex r'.state.baseIndex ≤ r'.state.commitIndex ∧
    r'.state.commitIndex - r'.state.baseIndex ≤ r'.state.entries.length

/-- The prefix up to a cut can be drained from the retained log. -/
def DrainInRange (st : PersistentState C) (cut : SnapshotCut) : Prop :=
  st.baseIndex ≤ cut.index ∧ cut.index - st.baseIndex ≤ st.entries.length

theorem drainInRange_of_termAt {st : PersistentState C} {cut : SnapshotCut} {t : ℕ}
    (h : st.termAt cut.index = some t) : DrainInRange st cut := by
  obtain ⟨hbase, hlast⟩ := termAt_le h
  unfold lastIndex at hlast
  exact ⟨hbase, by omega⟩

end

/-- In every machine that any calls lead to and that can take an event: an admitted event succeeds
or exhausts a counter; every flight lies in the retained log, so that it can be emitted; the
ranges that are sliced and drained exist; the sending loop ends. -/
theorem no_input_poisons {start : Raft C} {released : List (Output C)} (hbuilt : Built start)
    (hrun : Ran start released r) (havailable : r.available = .ok ()) :
    (∀ event, Bounded event → r.validateEvent event = .ok () →
      (∃ p r', r.step event = (.ok p, r') ∧ SliceInRange r r') ∨
        ∃ r', r.step event = (.error .counterExhausted, r')) ∧
    r.state.lastIndex < u64Max ∧
    (∀ (peer : MemberId) (progress : Progress), r.progress[peer]? = some progress →
      progress.next ≤ r.state.lastIndex + 1 ∧
      (∀ request prev last, .append request prev last ∈ progress.inFlight →
        r.state.baseIndex ≤ prev ∧ prev ≤ last ∧ last ≤ r.state.lastIndex) ∧
      (∀ flight ∈ progress.inFlight, ∀ output, ∃ s, r.emitFlight peer flight output = .ok s) ∧
      ∀ output, ∃ fuel, sendLoop peer fuel r output = some (Raft.sendWindow peer
        ((if progress.probing then 1 else r.appendWindow) - progress.inFlight.length) r output)) ∧
    (∀ cut, r.validateEvent (.compact cut) = .ok () → r.state.snapshot ≠ some cut →
      DrainInRange r.state cut) ∧
    ∀ pending, r.incomingSnapshot = some pending →
      r.state.commitIndex < pending.transfer.snapshot.index ∧
      (r.state.termAt pending.transfer.snapshot.index = some pending.transfer.snapshot.term →
        DrainInRange r.state pending.transfer.snapshot) := by
  obtain ⟨cursor, -, hkept⟩ := hrun.keeps hbuilt
  obtain ⟨hsound, -⟩ := hkept (available_live havailable)
  refine ⟨fun event hbounded hvalid => ?_, hsound.recoverable.last_lt, fun peer progress hp => ?_,
    fun cut hvalid hother => ?_, fun pending hpending => ⟨(hsound.awaited pending hpending).ahead,
      drainInRange_of_termAt⟩⟩
  · rcases step_publishes hsound havailable hvalid hbounded with ⟨p, r', hok, hp⟩ | ⟨r', herror, -⟩
    · have hcommit := hp.sound.recoverable.commit_le
      unfold PersistentState.lastIndex at hcommit
      exact .inl ⟨p, r', hok, le_max_right _ _, max_le hp.commit hp.sound.recoverable.base_le,
        by omega⟩
    · exact .inr ⟨r', herror⟩
  · have htracked := hsound.tracked peer progress hp
    refine ⟨htracked.next_le, fun request prev last hmem => htracked.flights _ hmem,
      fun flight hmem output => ?_, fun output => ⟨_, sendLoop_ends _ hp rfl⟩⟩
    obtain ⟨s, hok, -⟩ := emitFlight_emits hsound (htracked.flights flight hmem) output peer
    exact ⟨s, hok⟩
  · obtain ⟨-, hcut⟩ := validateEvent_accepts hvalid
    exact drainInRange_of_termAt (hcut.resolve_left hother).2

/-- What calls on a machine release, and the machine after them. -/
def Raft.calls (r : Raft C) (calls : List (Call C)) : List (Output C) × Raft C :=
  calls.foldl (fun s c => (s.1 ++ (s.2.call c).1.toList, (s.2.call c).2)) ([], r)

theorem ran_calls (r : Raft C) (calls : List (Call C)) (hfits : ∀ c ∈ calls, c.Fits) :
    Ran r (r.calls calls).1 (r.calls calls).2 :=
  foldlRecOn calls _ (motive := fun s : List (Output C) × Raft C => Ran r s.1 s.2) .start
    fun _ hs c hc => .call c hs (hfits c hc)

/-- Two voters. -/
def twoVoters : Configuration :=
  { domain := ⟨1#256⟩, identity := 2#256, voters := .ofList [1, 2], learners := ∅, joint := none,
    voters_ne := by decide }

/-- Member 1 of the two, just built. -/
def sampleStart : Raft ℕ := (Raft.new 1 twoVoters .default 0).toOption.get (by decide)

theorem sampleStart_built : Built sampleStart := .inl ⟨1, twoVoters, .default, 0, rfl⟩

/-- Member 1 takes a message of member 2 and publishes. -/
def sampleReceive (message : Message ℕ) (generation : ℕ) : List (Call ℕ) :=
  [.step (.receive { domain := ⟨1#256⟩, configuration := 2#256, sender := 2, recipient := 1, message }),
    .persisted { incarnation := 0, generation }]

/-- Member 1 is elected with the vote of member 2, and its no-op is in flight. -/
def sampleElection : List (Call ℕ) :=
  [.step .electionTimeout, .persisted { incarnation := 0, generation := 1 }] ++
    sampleReceive (.vote 1 true) 2

/-- The elected member. -/
def sampleLeader : Raft ℕ := (sampleStart.calls sampleElection).2

theorem sampleLeader_ran : Ran sampleStart (sampleStart.calls sampleElection).1 sampleLeader :=
  ran_calls _ _ (by simp [sampleElection, sampleReceive, Call.Fits, Bounded])

/-- The elected member takes a heartbeat, and can send again what is in flight. -/
theorem no_input_poisons_sample : ∃ progress : Progress, sampleLeader.role = .leader ∧
    sampleLeader.progress[(2 : MemberId)]? = some progress ∧ progress.inFlight = [.append 1 0 1] ∧
    (∀ output, ∃ s, sampleLeader.emitFlight 2 (.append 1 0 1) output = .ok s) ∧
    ∃ p r', sampleLeader.step .heartbeat = (.ok p, r') ∧ SliceInRange sampleLeader r' := by
  obtain ⟨hsteps, -, hflights, -⟩ := no_input_poisons sampleStart_built sampleLeader_ran (by decide +kernel)
  have hflight : sampleLeader.progress[(2 : MemberId)]?.map Progress.inFlight = some [.append 1 0 1] := by
    decide +kernel
  obtain ⟨progress, hprogress, hflight⟩ := Option.map_eq_some_iff.mp hflight
  refine ⟨progress, by decide +kernel, hprogress, hflight,
    (hflights 2 progress hprogress).2.2.1 _ (by simp [hflight]), ?_⟩
  have hok : (sampleLeader.step .heartbeat).1.isOk = true := by decide +kernel
  rcases hsteps .heartbeat trivial (by decide +kernel) with h | ⟨r', herror⟩
  · exact h
  · rw [herror] at hok
    cases hok

/-! ## Publication -/

/-- A step of any machine that calls lead to: without `requires_write` the state is the one before,
and the published state passes every check of `recover` under the limits of the machine. -/
theorem publication_sound {start : Raft C} {released : List (Output C)} (hbuilt : Built start)
    (hrun : Ran start released r) {event : Event C} (hbounded : Bounded event) {p : Persistence C}
    (hok : r.step event = (.ok p, r')) :
    (p.requiresWrite = false → p.state = r.state) ∧ p.state = r'.state ∧
      Recoverable r.id r.limits p.state ∧
      ∀ incarnation, ∃ node, Raft.recover r.id p.state r.limits incarnation = .ok node := by
  obtain ⟨cursor, -, hkept⟩ := hrun.keeps hbuilt
  have hlive : r.poisoned = false := by
    cases hpoisoned : r.poisoned with
    | false => rfl
    | true => cases (step_of_poisoned hpoisoned event).symm.trans hok
  obtain ⟨hsound, -⟩ := hkept hlive
  rcases step_cases hsound hbounded with ⟨p', r'', hok', -, hp⟩ | ⟨error, r'', herror, -⟩
  · cases hok.symm.trans hok'
    have hrecoverable : Recoverable r.id r.limits p.state := by
      rw [hp.state, ← hp.id, ← hp.limits]
      exact hp.sound.recoverable
    exact ⟨fun hwrite => hp.state.trans (hp.unchanged hwrite), hp.state, hrecoverable,
      fun incarnation => (recover_ok_iff incarnation).mpr hrecoverable⟩
  · cases hok.symm.trans herror

/-- The elected member, whose log has been written, takes a heartbeat without a write and a command
with one. -/
theorem publication_sound_sample : sampleLeader.state.lastIndex = 1 ∧
    (∃ p r', sampleLeader.step .heartbeat = (.ok p, r') ∧ p.requiresWrite = false ∧
      p.state = sampleLeader.state) ∧
    ∃ p r', sampleLeader.step (.propose 7) = (.ok p, r') ∧ p.requiresWrite = true ∧
      p.state.lastIndex = 2 ∧
      ∃ node, Raft.recover sampleLeader.id p.state sampleLeader.limits 1 = .ok node := by
  refine ⟨by decide +kernel, ?_, ?_⟩
  · have hfree : (sampleLeader.step .heartbeat).1.map Persistence.requiresWrite = .ok false := by
      decide +kernel
    rcases hstep : sampleLeader.step .heartbeat with ⟨_ | p, r'⟩ <;> rw [hstep] at hfree
    · cases hfree
    · have hwrite : p.requiresWrite = false := Except.ok.inj hfree
      exact ⟨p, r', rfl, hwrite,
        (publication_sound sampleStart_built sampleLeader_ran
          (show Bounded (.heartbeat : Event ℕ) from trivial) hstep).1 hwrite⟩
  · have hlog : (sampleLeader.step (.propose 7)).1.map (fun p => (p.requiresWrite, p.state.lastIndex)) =
        .ok (true, 2) := by decide +kernel
    rcases hstep : sampleLeader.step (.propose 7) with ⟨_ | p, r'⟩ <;> rw [hstep] at hlog
    · cases hlog
    · obtain ⟨hwrite, hlast⟩ := Prod.mk.inj (Except.ok.inj hlog)
      exact ⟨p, r', rfl, hwrite, hlast,
        (publication_sound sampleStart_built sampleLeader_ran
          (show Bounded (.propose 7 : Event ℕ) from trivial) hstep).2.2.2 1⟩

/-! ## Gap-free delivery -/

/-- Along every run the released outputs take an application from the commit index the machine was
built with, record by record and without a gap, to the commit index of the machine, or to one
pending output before it. Nothing above the delivered index is compacted away, and no call moves
the commit index back. -/
theorem delivery_gap_free {start : Raft C} {released : List (Output C)} (hbuilt : Built start)
    (hrun : Ran start released r) :
    (∃ cursor, released.foldlM advance start.state.commitIndex = some cursor ∧
      (r.poisoned = false → r.pending = none →
        r.state.commitIndex = cursor ∧ r.state.baseIndex ≤ cursor) ∧
      (r.poisoned = false → ∀ id output, r.pending = some (id, output) →
        advance cursor output = some r.state.commitIndex ∧
          (output.installedSnapshot = none → r.state.baseIndex ≤ cursor))) ∧
      ∀ c : Call C, c.Fits → r.state.commitIndex ≤ (r.call c).2.state.commitIndex := by
  obtain ⟨cursor, hcursor, hkept⟩ := hrun.keeps hbuilt
  refine ⟨⟨cursor, hcursor, fun hlive hpending => ?_, fun hlive id output hpending => ?_⟩,
    fun c hfits => (call_keeps c hfits hkept).1⟩
  · obtain ⟨hsound, hrests⟩ := hkept hlive
    unfold Rests at hrests
    rw [hpending] at hrests
    exact ⟨hrests, hrests ▸ hsound.recoverable.base_le⟩
  · obtain ⟨-, hrests⟩ := hkept hlive
    unfold Rests at hrests
    rw [hpending] at hrests
    exact hrests

/-- The elected member counts its no-op at member 2: the record is released, and an application that has
taken it is at the commit index. -/
theorem delivery_gap_free_sample :
    let run := sampleStart.calls (sampleElection ++ sampleReceive (.appended 1 1 true 0) 3)
    run.1.flatMap Output.committed = [{ index := 1, entry := { term := 1, command := none } }] ∧
      run.1.foldlM advance sampleStart.state.commitIndex = some 1 ∧ run.2.state.commitIndex = 1 := by
  intro run
  have hrun : Ran sampleStart run.1 run.2 :=
    ran_calls _ _ (by simp [sampleElection, sampleReceive, Call.Fits, Bounded])
  obtain ⟨⟨cursor, hcursor, hidle, -⟩, -⟩ := delivery_gap_free sampleStart_built hrun
  have hcommit : run.2.state.commitIndex = 1 := by decide +kernel
  obtain ⟨hlast, -⟩ := hidle (by decide +kernel) (by decide +kernel)
  exact ⟨by decide +kernel, by rw [hcursor, ← hlast, hcommit], hcommit⟩

end FrankenGraph.Order

import FrankenGraph.Order.Recovery

/-!
# What the methods of a machine keep

An invariant of one machine that needs nothing of the other members, and for every method of
`crates/fgdb-order/src/lib.rs`, `pipeline.rs`, `liveness.rs` and `leadership.rs` that a step calls:
from a sound machine it ends in a sound machine, or runs out of a counter. Whatever an envelope
says, nothing else stops it.

Results:
* `Sound`: the persistent state is recoverable, every flight lies in the retained log, and an
  awaited snapshot lies above the commit index.
* `sendAppend_settles`, `broadcast_settles`: the append pipeline.
* `campaign_settles`, `preCampaign_settles`, `acknowledge_settles` and the other methods.
-/

namespace FrankenGraph.Order

open List Option Raft PersistentState Std.ExtTreeMap

variable {C : Type} {r : Raft C} {output : Output C}

/-! ## The invariant of a machine -/

/-- A flight names a range of the retained log, or the current cut. -/
def Fits (st : PersistentState C) : InFlight → Prop
  | .append _ prev last => st.baseIndex ≤ prev ∧ prev ≤ last ∧ last ≤ st.lastIndex
  | .snapshot _ cut => st.snapshot = some cut

variable {flight : InFlight}

theorem Fits.last_le {st : PersistentState C} (h : Fits st flight) :
    flight.last ≤ st.lastIndex := by
  cases flight with
  | append request prev last => exact h.2.2
  | snapshot request cut =>
    have hbase : st.baseIndex = cut.index := by
      unfold baseIndex
      rw [show st.snapshot = some cut from h]
      rfl
    exact hbase.ge.trans (Nat.le_add_right _ _)

structure Tracked (st : PersistentState C) (progress : Progress) : Prop where
  matched_lt : progress.matched < progress.next
  next_le : progress.next ≤ st.lastIndex + 1
  flights : ∀ flight ∈ progress.inFlight, Fits st flight

/-- What is tracked stays right while the cut is kept and the log does not shrink. -/
theorem Tracked.mono {st st' : PersistentState C} {progress : Progress} (h : Tracked st progress)
    (hcut : st'.snapshot = st.snapshot) (hlast : st.lastIndex ≤ st'.lastIndex) :
    Tracked st' progress := by
  refine ⟨h.matched_lt, h.next_le.trans (Nat.add_le_add_right hlast 1), fun flight hmem => ?_⟩
  have hfits := h.flights flight hmem
  cases flight with
  | append request prev last =>
    have hbase : st'.baseIndex = st.baseIndex := by rw [baseIndex, hcut, baseIndex]
    exact ⟨hbase.trans_le hfits.1, hfits.2.1, hfits.2.2.trans hlast⟩
  | snapshot request cut => exact hcut.trans hfits

/-- A follower waits for a cut above its commit index. -/
structure Awaited (r : Raft C) (pending : IncomingSnapshot) : Prop where
  follower : r.role = .follower
  ahead : r.state.commitIndex < pending.transfer.snapshot.index
  index_lt : pending.transfer.snapshot.index < u64Max
  term_le : pending.transfer.snapshot.term ≤ pending.term
  domain : pending.transfer.snapshot.domain = r.state.configuration.domain
  configuration : pending.transfer.snapshot.configuration = r.state.configuration.identity

structure Sound (r : Raft C) : Prop where
  recoverable : Recoverable r.id r.limits r.state
  standing : r.role = .preCandidate → r.isVoter r.id = true
  leading : r.role = .leader → r.state.term ≠ 0
  idle : r.role ≠ .leader → r.progress = ∅
  others : r.progress[r.id]? = none
  tracked : ∀ (peer : MemberId) (progress : Progress), r.progress[peer]? = some progress →
    Tracked r.state progress
  awaited : ∀ pending, r.incomingSnapshot = some pending → Awaited r pending

/-- The fields the invariant and a frame speak of. -/
def Raft.kernel (r : Raft C) :=
  (r.framed, r.role, r.progress, r.limits, r.incomingSnapshot)

theorem Sound.congr {r' : Raft C} (h : Sound r) (heq : r'.kernel = r.kernel) : Sound r' := by
  simp only [kernel, framed, Prod.mk.injEq] at heq
  obtain ⟨⟨hid, hstate, -⟩, hrole, hprogress, hlimits, hincoming⟩ := heq
  refine ⟨?_, ?_, ?_, ?_, ?_, ?_, fun pending hp => ?_⟩
  · rw [hid, hstate, hlimits]
    exact h.recoverable
  · unfold isVoter
    rw [hrole, hstate, hid]
    exact h.standing
  · rw [hrole, hstate]
    exact h.leading
  · rw [hrole, hprogress]
    exact h.idle
  · rw [hprogress, hid]
    exact h.others
  · rw [hprogress, hstate]
    exact h.tracked
  · rw [hincoming] at hp
    obtain ⟨hfollower, hahead, hindex, hterm, hdomain, hconfiguration⟩ := h.awaited pending hp
    exact ⟨hrole.trans hfollower, hstate ▸ hahead, hindex, hterm, hstate ▸ hdomain,
      hstate ▸ hconfiguration⟩

/-- The flags of publication are not part of the invariant. -/
theorem Sound.flagged (h : Sound r) (initialized logChanged : Bool) :
    Sound { r with initialized, logChanged } :=
  { h with awaited := fun pending hp => { h.awaited pending hp with } }

/-- A follower tracks nobody. -/
theorem Sound.ofFollower (hrecoverable : Recoverable r.id r.limits r.state)
    (hrole : r.role = .follower) (hempty : r.progress = ∅)
    (hawaited : ∀ pending, r.incomingSnapshot = some pending → Awaited r pending) : Sound r where
  recoverable := hrecoverable
  standing hpre := by cases hrole.symm.trans hpre
  leading hlead := by cases hrole.symm.trans hlead
  idle _ := hempty
  others := by rw [hempty]; rfl
  tracked peer progress hp := by
    rw [hempty] at hp
    cases hp
  awaited := hawaited

/-- Replacing what is tracked about one peer. -/
theorem Sound.modify (h : Sound r) (peer : MemberId) {f : Progress → Progress}
    (hf : ∀ progress, r.progress[peer]? = some progress → Tracked r.state (f progress)) :
    Sound { r with progress := r.progress.modify peer f } where
  recoverable := h.recoverable
  standing := h.standing
  leading := h.leading
  idle hrole := by
    change r.progress.modify peer f = ∅
    rw [h.idle hrole]
    rfl
  others := by
    change (r.progress.modify peer f)[r.id]? = none
    rw [Std.ExtTreeMap.getElem?_modify]
    split_ifs with heq
    · rw [Std.LawfulEqCmp.eq_of_compare heq, h.others, map_none]
    · exact h.others
  tracked p progress hp := by
    change (r.progress.modify peer f)[p]? = some progress at hp
    rw [Std.ExtTreeMap.getElem?_modify] at hp
    split_ifs at hp with heq
    · obtain ⟨old, hold, rfl⟩ := map_eq_some_iff.mp hp
      exact hf old hold
    · exact h.tracked p progress hp
  awaited pending hp := { h.awaited pending hp with }

/-! ## Methods -/

/-- A method that neither compacts nor installs ran from `r` and `output` to `s`. -/
structure Moves (r : Raft C) (output : Output C) (s : Stepped C) : Prop where
  sound : Sound s.1
  frame : Frame r s.1
  limits : s.1.limits = r.limits
  snapshot : s.1.state.snapshot = r.state.snapshot
  installed : s.2.installedSnapshot = output.installedSnapshot

theorem Moves.trans {s s' : Stepped C} (h : Moves r output s) (h' : Moves s.1 s.2 s') :
    Moves r output s' :=
  ⟨h'.sound, h.frame.trans h'.frame, h'.limits.trans h.limits, h'.snapshot.trans h.snapshot,
    h'.installed.trans h.installed⟩

/-- A change outside the fields of the invariant. -/
theorem Moves.same {r' : Raft C} {output' : Output C} (h : Sound r) (heq : r'.kernel = r.kernel)
    (hinstalled : output'.installedSnapshot = output.installedSnapshot) :
    Moves r output (r', output') := by
  refine ⟨h.congr heq, .same ?_, ?_, ?_, hinstalled⟩
  · exact congrArg (fun k => k.1) heq
  · exact congrArg (fun k => k.2.2.2.1) heq
  · exact congrArg (fun k => k.1.2.1.snapshot) heq

theorem Moves.refl (h : Sound r) : Moves r output (r, output) := .same h rfl rfl

theorem Moves.modify (h : Sound r) (output : Output C) (peer : MemberId)
    {f : Progress → Progress} (hf : ∀ progress, r.progress[peer]? = some progress → Tracked r.state (f progress)) :
    Moves r output ({ r with progress := r.progress.modify peer f }, output) :=
  ⟨h.modify peer hf, .same rfl, rfl, rfl, rfl⟩

/-- A method ends as `P` says, or a counter is exhausted. -/
def Settles (x : Except Error (Stepped C)) (P : Stepped C → Prop) : Prop :=
  (∃ s, x = .ok s ∧ P s) ∨ x = .error .counterExhausted

namespace Settles

variable {x : Except Error (Stepped C)} {P Q : Stepped C → Prop}

theorem ok {s : Stepped C} (h : P s) : Settles (.ok s) P := .inl ⟨s, rfl, h⟩

theorem mono (h : Settles x P) (hPQ : ∀ s, P s → Q s) : Settles x Q :=
  h.imp_left fun ⟨s, hs, hP⟩ => ⟨s, hs, hPQ s hP⟩

theorem bind {f : Stepped C → Except Error (Stepped C)} (h : Settles x P)
    (hf : ∀ s, P s → Settles (f s) Q) : Settles (x >>= f) Q := by
  rcases h with ⟨s, rfl, hP⟩ | rfl
  · exact hf s hP
  · exact .inr rfl

theorem after {s : Stepped C} (hmoves : Moves r output s) (h : Settles x (Moves s.1 s.2)) :
    Settles x (Moves r output) := h.mono fun _ h' => hmoves.trans h'

/-- A loop over a list keeps what each pass keeps. -/
theorem foldlM {α : Type} {f : Stepped C → α → Except Error (Stepped C)} {l : List α}
    (hf : ∀ s, ∀ a ∈ l, P s → Settles (f s a) P) : ∀ s, P s → Settles (l.foldlM f s) P := by
  induction l with
  | nil => exact fun s hs => ok hs
  | cons a rest ih =>
    intro s hs
    rw [foldlM_cons]
    exact (hf s a mem_cons_self hs).bind
      (ih fun t b hb => hf t b (mem_cons_of_mem _ hb))

end Settles

@[simp]
theorem emitAll_installed (recipients : List MemberId) (message : Message C) :
    (r.emitAll recipients message output).installedSnapshot = output.installedSnapshot := by
  unfold emitAll
  induction recipients generalizing output with
  | nil => rfl
  | cons a rest ih => exact ih

/-! ## Following -/

theorem follow_moves (h : Sound r) (output : Output C) (term : ℕ) :
    Moves r output (r.follow term, output) := by
  have hframe := follow_frame r term
  have hlimits : (r.follow term).limits = r.limits := by
    unfold follow
    dsimp only
    split_ifs <;> rfl
  have hsame : (r.follow term).state.snapshot = r.state.snapshot ∧
      (r.follow term).state.commitIndex = r.state.commitIndex ∧
      Recoverable r.id r.limits (r.follow term).state := by
    rcases Nat.lt_or_ge r.state.term term with hlt | hge
    · rw [follow_state_lt hlt]
      exact ⟨rfl, rfl, h.recoverable.enter hlt.le⟩
    · rw [follow_state_ge hge]
      exact ⟨rfl, rfl, h.recoverable⟩
  obtain ⟨hsnapshot, hcommit, hrecoverable⟩ := hsame
  have hrole : (r.follow term).role = .follower := follow_role r term
  refine ⟨.ofFollower ?_ hrole (follow_progress r term) ?_, hframe, hlimits, hsnapshot, rfl⟩
  · change Recoverable (r.follow term).id (r.follow term).limits (r.follow term).state
    rw [hframe.id, hlimits]
    exact hrecoverable
  · intro pending hp
    rcases Nat.lt_or_ge r.state.term term with hlt | hge
    · cases (follow_incoming_lt hlt).symm.trans hp
    · obtain ⟨-, hahead, hindex, hterm, hdomain, hconfiguration⟩ :=
        h.awaited pending ((follow_incoming_ge hge).symm.trans hp)
      have hstate : (r.follow term).state = r.state := follow_state_ge hge
      exact ⟨hrole, hstate ▸ hahead, hindex, hterm, hstate ▸ hdomain, hstate ▸ hconfiguration⟩

/-- The machine stops waiting for a snapshot. -/
theorem cancel_moves (h : Sound r) (output : Output C) :
    Moves r output ({ r with incomingSnapshot := none }, output) :=
  ⟨{ h with awaited := fun pending hp => absurd hp.symm (some_ne_none pending) }, .same rfl,
    rfl, rfl, rfl⟩

theorem acceptLeader_moves (h : Sound r) (output : Output C) (sender : MemberId) (term : ℕ) :
    Moves r output (r.acceptLeader sender term output) := by
  unfold acceptLeader
  dsimp only
  have hfollow := follow_moves h output term
  refine hfollow.trans ?_
  split_ifs
  · have hcancel := cancel_moves hfollow.sound output
    exact hcancel.trans (.same hcancel.sound rfl rfl)
  · exact .same hfollow.sound rfl rfl

/-! ## The append pipeline -/

theorem flightMessage_isSome (h : Fits r.state flight) :
    ∃ message, r.flightMessage flight = some message := by
  cases flight with
  | append request prev last =>
    obtain ⟨hbase, hle, hlast⟩ := h
    obtain ⟨t, ht⟩ := exists_termAt hbase (hle.trans hlast)
    unfold lastIndex at hlast
    refine ⟨.append r.state.term request prev t ((r.state.entries.take
      (last - r.state.baseIndex)).drop (prev - r.state.baseIndex)) r.state.commitIndex, ?_⟩
    simp only [flightMessage, ht, bind_eq_bind, bind_some]
    rw [if_neg (by omega), slice, if_pos (by omega)]
    rfl
  | snapshot request cut => exact ⟨_, rfl⟩

/-- Emitting a flight notes the commit index sent, and nothing else about the peers. -/
structure Emits (r : Raft C) (output : Output C) (peer : MemberId) (s : Stepped C) : Prop where
  moves : Moves r output s
  state : s.1.state = r.state
  progress : ∀ progress', s.1.progress[peer]? = some progress' → ∃ progress,
    r.progress[peer]? = some progress ∧ progress'.matched = progress.matched ∧
      progress'.next = progress.next ∧ progress'.inFlight = progress.inFlight
  present : ∀ progress, r.progress[peer]? = some progress →
    ∃ progress', s.1.progress[peer]? = some progress'

theorem emitFlight_emits (h : Sound r) (hfits : Fits r.state flight) (output : Output C)
    (peer : MemberId) :
    ∃ s, r.emitFlight peer flight output = .ok s ∧ Emits r output peer s := by
  obtain ⟨message, hmessage⟩ := flightMessage_isSome hfits
  unfold Raft.emitFlight
  rw [hmessage]
  refine ⟨_, rfl, ?_⟩
  split_ifs
  · exact ⟨.same h rfl rfl, rfl, fun progress hp => ⟨progress, hp, rfl, rfl, rfl⟩,
      fun progress hp => ⟨progress, hp⟩⟩
  · have hsent := Moves.modify h output peer
      (f := fun progress => { progress with sentCommit := r.state.commitIndex })
      fun progress hp => { h.tracked peer progress hp with }
    refine ⟨hsent.trans (.same hsent.sound rfl rfl), rfl, ?_, ?_⟩
    · intro progress' hp
      change (r.progress.modify peer _)[peer]? = some progress' at hp
      rw [getElem?_modify_self] at hp
      obtain ⟨progress, hold, rfl⟩ := map_eq_some_iff.mp hp
      exact ⟨progress, hold, rfl, rfl, rfl⟩
    · intro progress hp
      change ∃ progress', (r.progress.modify peer _)[peer]? = some progress'
      rw [getElem?_modify_self, hp]
      exact ⟨_, rfl⟩

/-- The flight opened next lies in the retained log and moves the window forward. -/
theorem nextFlight_fits {progress : Progress} (h : Tracked r.state progress)
    (hbound : r.state.lastIndex < u64Max) :
    ∃ flight, r.nextFlight progress.next = some flight ∧ Fits r.state flight ∧
      (flight.isSnapshot = false → progress.next ≤ flight.last + 1) := by
  have hmatched := h.matched_lt
  have hnext := h.next_le
  unfold nextFlight
  split_ifs with hle
  · cases hcut : r.state.snapshot with
    | none =>
      unfold baseIndex at hle
      rw [hcut] at hle
      simp only [map_none, getD_none] at hle
      omega
    | some cut => exact ⟨_, rfl, hcut, fun hfalse => by cases hfalse⟩
  · have hlast : progress.next - 1 ≤
        min r.state.lastIndex (saturatingAdd (progress.next - 1) r.limits.maxAppendEntries) := by
      unfold saturatingAdd
      omega
    refine ⟨_, rfl, ⟨by omega, hlast, Nat.min_le_left _ _⟩, fun _ => ?_⟩
    dsimp only [InFlight.last]
    omega

/-- The loop of `send_append` ends within its room. -/
theorem sendWindow_settles {peer : MemberId} (room : ℕ) : ∀ {r : Raft C} {output : Output C},
    Sound r → (∃ progress, r.progress[peer]? = some progress) →
      Settles (Raft.sendWindow peer room r output) fun s => Moves r output s ∧ s.1.state = r.state := by
  induction room with
  | zero => exact fun h _ => .ok ⟨.refl h, rfl⟩
  | succ room ih =>
    intro r output h hpeer
    obtain ⟨progress, hprogress⟩ := hpeer
    rw [Raft.sendWindow, hprogress]
    dsimp only
    split_ifs with hstop
    · exact .ok ⟨.refl h, rfl⟩
    cases hrequest : checkedAdd r.request 1 with
    | none => exact .inr rfl
    | some request =>
      have hbump : Moves r output ({ r with request }, output) := .same h rfl rfl
      have htracked := h.tracked peer progress hprogress
      obtain ⟨flight, hflight, hfits, hforward⟩ :=
        nextFlight_fits (r := { r with request }) htracked h.recoverable.last_lt
      obtain ⟨s, hok, hemits⟩ := emitFlight_emits hbump.sound hfits output peer
      dsimp only
      rw [hflight]
      dsimp only
      rw [hok]
      -- the flight joins the window of the peer
      have hpush := Moves.modify hemits.moves.sound s.2 peer
        (f := fun progress => { progress with
          next := if flight.isSnapshot then progress.next else flight.last + 1
          inFlight := progress.inFlight ++ [flight] }) fun progress' hp => by
        obtain ⟨old, hold, hmatched, hnext, hinFlight⟩ := hemits.progress progress' hp
        cases hprogress.symm.trans hold
        have ht := hemits.moves.sound.tracked peer progress' hp
        have hstate : s.1.state = r.state := hemits.state
        rw [hstate] at ht ⊢
        have hlast : flight.last ≤ r.state.lastIndex := hfits.last_le
        refine ⟨?_, ?_, ?_⟩
        · dsimp only
          split_ifs with hsnapshot
          · exact ht.matched_lt
          · have := hforward (Bool.eq_false_of_not_eq_true hsnapshot)
            have := htracked.matched_lt
            omega
        · dsimp only
          split_ifs
          · exact ht.next_le
          · omega
        · intro other hother
          rcases mem_append.mp hother with hmem | hmem
          · exact ht.flights other hmem
          · rw [mem_singleton.mp hmem]
            exact hfits
      obtain ⟨progress', hpresent⟩ := hemits.present progress hprogress
      have hstill : ∃ progress, (s.1.progress.modify peer fun progress => { progress with
          next := if flight.isSnapshot then progress.next else flight.last + 1
          inFlight := progress.inFlight ++ [flight] })[peer]? = some progress := by
        rw [getElem?_modify_self, hpresent]
        exact ⟨_, rfl⟩
      refine (ih hpush.sound hstill).mono fun s' hs' => ⟨?_, hs'.2.trans hemits.state⟩
      exact ((hbump.trans hemits.moves).trans hpush).trans hs'.1

variable (h : Sound r)
include h

theorem sendAppend_settles (peer : MemberId) (retry : Bool) :
    Settles (r.sendAppend peer output retry) (Moves r output) := by
  unfold sendAppend
  cases hprogress : r.progress[peer]? with
  | none => exact .ok (.refl h)
  | some progress =>
    have htracked := h.tracked peer progress hprogress
    have hretry : Settles ((if retry then progress.inFlight else []).foldlM
        (fun (s : Stepped C) flight => s.1.emitFlight peer flight s.2) (r, output))
        fun s => Moves r output s ∧ s.1.state = r.state ∧
          ∃ progress, s.1.progress[peer]? = some progress := by
      refine Settles.foldlM (fun s flight hmem hs => ?_) _ ⟨.refl h, rfl, progress, hprogress⟩
      obtain ⟨hmoves, hstate, old, hold⟩ := hs
      have hfits : Fits s.1.state flight := by
        rw [hstate]
        cases retry with
        | false => cases hmem
        | true => exact htracked.flights flight hmem
      obtain ⟨s', hok, hemits⟩ := emitFlight_emits hmoves.sound hfits s.2 peer
      rw [hok]
      exact .ok ⟨hmoves.trans hemits.moves, hemits.state.trans hstate, hemits.present old hold⟩
    refine hretry.bind fun s hs => ?_
    exact (sendWindow_settles _ hs.1.sound hs.2.2).mono fun s' hs' => hs.1.trans hs'.1

theorem broadcast_settles (retry : Bool) : Settles (r.broadcast output retry) (Moves r output) :=
  Settles.foldlM (fun _ peer _ hs => .after hs (sendAppend_settles hs.sound peer retry)) _ (.refl h)

/-! ## Commitment -/

/-- The commit index moves up within the log. -/
theorem Sound.commit (output : Output C) {n : ℕ} (hle : r.state.commitIndex ≤ n)
    (hlast : n ≤ r.state.lastIndex) (hidle : r.incomingSnapshot = none) :
    Moves r output ({ r with state := { r.state with commitIndex := n } }, output) where
  sound :=
    { h with
      recoverable := h.recoverable.commit hle hlast
      tracked := fun peer progress hp => (h.tracked peer progress hp).mono rfl le_rfl
      awaited := fun pending hp => by cases hidle.symm.trans hp }
  frame := ⟨rfl, rfl, rfl, rfl, hle, fun hk => ⟨hk, rfl, rfl⟩⟩
  limits := rfl
  snapshot := rfl
  installed := rfl

/-- Only a follower waits for a snapshot. -/
theorem Sound.incoming_none (hrole : r.role ≠ .follower) : r.incomingSnapshot = none := by
  cases hp : r.incomingSnapshot with
  | none => rfl
  | some pending => exact absurd (h.awaited pending hp).follower hrole

theorem advanceCommit_moves (output : Output C) (hrole : r.role ≠ .follower) :
    Moves r output (r.advanceCommit.1, output) ∧ r.advanceCommit.1.role = r.role := by
  unfold advanceCommit
  dsimp only
  split_ifs with hadvance
  · exact ⟨h.commit output hadvance.1.le (termAt_le hadvance.2).2
      (h.incoming_none hrole), rfl⟩
  · exact ⟨.refl h, rfl⟩

/-- A leader appends entries of its own term. -/
theorem Sound.extend (output : Output C) (hrole : r.role = .leader)
    {es : List (Entry C)} (hes : ∀ e ∈ es, e.term = r.state.term) (hlast : r.state.lastIndex + es.length < u64Max)
    (hlength : r.state.entries.length + es.length ≤ r.limits.maxLogEntries) :
    Moves r output ({ r with
      logChanged := true, state := { r.state with entries := r.state.entries ++ es } }, output) where
  sound :=
    { h with
      recoverable := h.recoverable.extend (h.leading hrole) hes hlast hlength
      tracked := fun peer progress hp => by
        refine (h.tracked peer progress hp).mono rfl ?_
        unfold lastIndex baseIndex
        dsimp only
        rw [length_append]
        omega
      awaited := fun pending hp => by
        cases (h.incoming_none (by rw [hrole]; decide)).symm.trans hp }
  frame := ⟨rfl, rfl, rfl, rfl, le_rfl, fun hk => by cases hk⟩
  limits := rfl
  snapshot := rfl
  installed := rfl

theorem appendProposals_settles (hrole : r.role = .leader) {commands : List C}
    (hlast : r.state.lastIndex + commands.length < u64Max)
    (hlength : r.state.entries.length + commands.length ≤ r.limits.maxLogEntries) :
    Settles (r.appendProposals commands output) (Moves r output) := by
  have hown : ∀ e ∈ commands.map fun command => Entry.mk r.state.term (some command),
      e.term = r.state.term := by
    intro e he
    obtain ⟨command, -, rfl⟩ := mem_map.mp he
    rfl
  have hextend := h.extend output hrole hown (by rwa [length_map]) (by rwa [length_map])
  obtain ⟨hcommit, -⟩ := advanceCommit_moves hextend.sound output
    (by change r.role ≠ .follower; rw [hrole]; decide)
  exact .after (hextend.trans hcommit) (broadcast_settles (hextend.trans hcommit).sound false)

/-! ## Probes and elections -/

omit h in
theorem retryQuorumProbe_installed :
    (r.retryQuorumProbe output).installedSnapshot = output.installedSnapshot := by
  unfold retryQuorumProbe
  split
  · rfl
  · exact emitAll_installed _ _

theorem startQuorumProbe_moves (output : Output C) : Moves r output (r.startQuorumProbe output) :=
  .same h rfl retryQuorumProbe_installed

/-- A candidate of a term becomes its leader. -/
theorem takeLead_moves (output : Output C) (hrole : r.role = .candidate)
    (hterm : r.state.term ≠ 0) : Moves r output (r.takeLead, output) := by
  have hempty := h.idle (by rw [hrole]; decide)
  obtain ⟨hself, hfresh⟩ := freshProgress_spec hempty (r.state.lastIndex + 1)
  refine ⟨⟨h.recoverable, ?_, fun _ => hterm, ?_, hself, ?_, ?_⟩, .same rfl, rfl, rfl, rfl⟩
  · exact fun hpre => by cases hpre
  · exact fun hlead => absurd rfl hlead
  · intro peer progress hp
    obtain ⟨hmatched, hnext, hinFlight⟩ := hfresh peer progress hp
    refine ⟨by omega, hnext.le, fun flight hmem => ?_⟩
    rw [hinFlight] at hmem
    cases hmem
  · intro pending hp
    cases (h.incoming_none (by rw [hrole]; decide)).symm.trans hp

theorem appendNoOp_moves (output : Output C) (hrole : r.role = .leader) :
    Moves r output (r.appendNoOp, output) ∧ r.appendNoOp.role = .leader := by
  unfold appendNoOp
  split_ifs with hroom
  · refine ⟨h.extend output hrole (fun e he => ?_) hroom.2 hroom.1, hrole⟩
    rw [mem_singleton.mp he]
  · exact ⟨.refl h, hrole⟩

theorem becomeLeader_settles (hrole : r.role = .candidate)
    (hterm : r.state.term ≠ 0) : Settles (r.becomeLeader output) (Moves r output) := by
  have hlead := takeLead_moves h output hrole hterm
  obtain ⟨hnoop, hrole₁⟩ := appendNoOp_moves hlead.sound output rfl
  obtain ⟨hcommit, -⟩ := advanceCommit_moves hnoop.sound output
    (show r.takeLead.appendNoOp.role ≠ .follower by rw [hrole₁]; decide)
  have hmoves := (hlead.trans hnoop).trans hcommit
  unfold becomeLeader
  refine (Settles.after hmoves (broadcast_settles hmoves.sound false)).bind fun s hs => ?_
  change Settles (if s.1.liveness.enabled = true then Except.ok (s.1.startQuorumProbe s.2)
    else Except.ok (s.1, s.2)) _
  split_ifs
  · exact .ok (hs.trans (startQuorumProbe_moves hs.sound s.2))
  · exact .ok hs

variable {term : ℕ}

/-- The next term, with a vote for oneself. -/
theorem standFor_moves (output : Output C) (hlt : r.state.term < term)
    (hvoter : r.isVoter r.id = true) : Moves r output (r.standFor term, output) := by
  have hfollow := follow_moves h output term
  have hnone : (r.follow term).incomingSnapshot = none := follow_incoming_lt hlt
  have hterm : (r.follow term).state.term ≠ 0 := by
    rw [follow_term hlt.le]
    omega
  have hself : (r.follow term).state.configuration.voters.contains (r.follow term).id = true := by
    rw [hfollow.frame.configuration, hfollow.frame.id]
    exact hvoter
  have hsound := hfollow.sound
  refine hfollow.trans ⟨⟨hsound.recoverable.castVote hterm hself, ?_, ?_, ?_, hsound.others, ?_, ?_⟩,
    ⟨rfl, rfl, rfl, rfl, le_rfl, fun hk => ⟨hk, rfl, rfl⟩⟩, rfl, rfl, rfl⟩
  · exact fun hpre => by cases hpre
  · exact fun hlead => by cases hlead
  · exact fun _ => follow_progress r term
  · intro peer progress hp
    rw [show (r.standFor term).progress = ∅ from follow_progress r term] at hp
    cases hp
  · intro pending hp
    cases hnone.symm.trans hp

theorem campaign_settles (hvoter : r.isVoter r.id = true) :
    Settles (r.campaign output) (Moves r output) := by
  unfold campaign
  split_ifs with hrole
  · exact .ok (.refl h)
  cases hterm : checkedAdd r.state.term 1 with
  | none => exact .inr rfl
  | some term =>
    obtain rfl := checkedAdd_eq_some hterm
    have hstand := standFor_moves h output (Nat.lt_succ_self _) hvoter
    have hreset : Moves r output (r.standFor (r.state.term + 1),
        { output with resetElectionTimer := true }) := hstand.trans (.same hstand.sound rfl rfl)
    dsimp only
    split_ifs with hquorum
    · refine .after hreset (becomeLeader_settles hreset.sound rfl ?_)
      change (r.follow (r.state.term + 1)).state.term ≠ 0
      rw [follow_term (Nat.le_succ _)]
      omega
    · exact .ok (hreset.trans (.same hreset.sound rfl (emitAll_installed _ _)))

theorem preCampaign_settles (hvoter : r.isVoter r.id = true) :
    Settles (r.preCampaign output) (Moves r output) := by
  unfold preCampaign
  split_ifs with hrole
  · exact .ok (.refl h)
  cases hterm : checkedAdd r.state.term 1 with
  | none => exact .inr rfl
  | some term =>
    have hfollow := follow_moves h output r.state.term
    have hcancel := hfollow.trans (cancel_moves hfollow.sound output)
    have hvoter' : (r.follow r.state.term).isVoter (r.follow r.state.term).id = true := by
      unfold isVoter
      rw [hfollow.frame.configuration, hfollow.frame.id]
      exact hvoter
    have hpre : Moves r output ({ r.follow r.state.term with
        incomingSnapshot := none, role := .preCandidate },
        { output with resetElectionTimer := true }) := by
      have hsound := hcancel.sound
      refine hcancel.trans ⟨⟨hsound.recoverable, fun _ => hvoter', ?_, fun _ => ?_, hsound.others,
        hsound.tracked, ?_⟩, .same rfl, rfl, rfl, rfl⟩
      · exact fun hlead => by cases hlead
      · exact follow_progress r r.state.term
      · exact fun pending hp => by cases hp
    dsimp only
    split_ifs
    · exact .after hpre (campaign_settles hpre.sound hvoter')
    · exact .ok (hpre.trans (.same hpre.sound rfl (emitAll_installed _ _)))

theorem livenessTimeout_settles (hvoter : r.isVoter r.id = true) :
    Settles (r.livenessTimeout output) (Moves r output) := by
  have henabled : Moves r output ({ r with liveness := { r.liveness with enabled := true } },
      output) := .same h rfl rfl
  unfold livenessTimeout
  dsimp only
  split_ifs
  · exact .after henabled (preCampaign_settles henabled.sound hvoter)
  · have hfollow := follow_moves henabled.sound output r.state.term
    exact .ok ((henabled.trans hfollow).trans (.same hfollow.sound rfl rfl))
  · exact .ok (henabled.trans (startQuorumProbe_moves henabled.sound output))

/-! ## Handing leadership over -/

theorem startHandoff_settles (target : MemberId) :
    Settles (r.startHandoff target output) (Moves r output) := by
  have hopen : Moves r output ({ r with handoff := some (r.handoff.getD (r.newHandoff target)) },
      output) := .same h rfl rfl
  unfold startHandoff
  dsimp only
  split_ifs
  · exact .after hopen (sendAppend_settles hopen.sound target true)
  · exact .ok hopen

theorem driveHandoff_moves (output : Output C) (retry : Bool) :
    Moves r output (r.driveHandoff output retry) := by
  unfold driveHandoff
  cases r.handoff with
  | none => exact .refl h
  | some pending =>
    dsimp only
    split_ifs
    · exact .refl h
    · exact .refl h
    · exact .same h rfl rfl

theorem timeoutNow_settles (sender : MemberId) (term lastIndex lastTerm : ℕ) :
    Settles (r.timeoutNow sender term lastIndex lastTerm output) (Moves r output) := by
  unfold timeoutNow
  split_ifs with hstop
  · exact .ok (.refl h)
  · refine campaign_settles h ?_
    by_contra hvoter
    exact hstop (.inr (.inr (.inr (.inl (by simpa using hvoter)))))

/-! ## Liveness messages and votes -/

theorem quorumProbe_moves (output : Output C) (sender : MemberId)
    (term round : ℕ) : Moves r output (r.quorumProbe sender term round output) := by
  unfold quorumProbe
  by_cases hterm : term = r.state.term
  · simp only [if_pos hterm]
    have haccept := acceptLeader_moves h output sender term
    refine haccept.trans (.same haccept.sound rfl ?_)
    split_ifs <;> rfl
  · simp only [if_neg hterm]
    refine .same h rfl ?_
    split_ifs <;> rfl

theorem quorumReply_moves (output : Output C) (sender : MemberId)
    (term round : ℕ) : Moves r output (r.quorumReply sender term round, output) := by
  unfold quorumReply
  split_ifs
  · exact .refl h
  · exact .same h rfl rfl

theorem preVoteReply_settles (sender : MemberId) (prospectiveTerm round : ℕ) (granted : Bool) :
    Settles (r.preVoteReply sender prospectiveTerm round granted output) (Moves r output) := by
  unfold preVoteReply
  split_ifs with hstop
  · exact .ok (.refl h)
  have hvoter : r.isVoter r.id = true := by
    refine h.standing ?_
    by_contra hrole
    exact hstop (.inl hrole)
  cases r.liveness.preVote with
  | none => exact .ok (.refl h)
  | some pending =>
    dsimp only
    split_ifs
    · exact .ok (.refl h)
    · have hcount : Moves r output ({ r with liveness := { r.liveness with
          preVote := some { pending with voters := pending.voters.insert sender } } }, output) :=
        .same h rfl rfl
      exact .after hcount (campaign_settles hcount.sound hvoter)
    · exact .ok (.same h rfl rfl)

/-- A vote within the current term. -/
theorem castVote_moves (output : Output C) {member : MemberId}
    (hterm : r.state.term ≠ 0) (hvoter : r.isVoter member = true) :
    Moves r output ({ r with state := { r.state with votedFor := some member } }, output) where
  sound :=
    { h with
      recoverable := h.recoverable.castVote hterm hvoter
      tracked := fun peer progress hp => (h.tracked peer progress hp).mono rfl le_rfl
      awaited := fun pending hp => { h.awaited pending hp with } }
  frame := ⟨rfl, rfl, rfl, rfl, le_rfl, fun hk => ⟨hk, rfl, rfl⟩⟩
  limits := rfl
  snapshot := rfl
  installed := rfl

theorem receiveRequestVote_moves (output : Output C) {sender : MemberId}
    (hzero : term ≠ 0) (hsender : r.isVoter sender = true) (lastIndex lastTerm : ℕ) :
    Moves r output (r.receiveRequestVote sender term lastIndex lastTerm output) := by
  unfold receiveRequestVote
  by_cases hgrant : term = r.state.term ∧ r.isVoter r.id = true ∧
      (r.state.votedFor = none ∨ r.state.votedFor = some sender) ∧
      r.freshEnough lastTerm lastIndex = true
  · rw [if_pos hgrant]
    have hfollow : Moves r output (if r.role = .preCandidate then r.follow term else r, output) ∧
        (if r.role = .preCandidate then r.follow term else r).state = r.state := by
      split_ifs
      · exact ⟨follow_moves h output term, follow_state_ge hgrant.1.le⟩
      · exact ⟨.refl h, rfl⟩
    dsimp only
    generalize (if r.role = .preCandidate then r.follow term else r) = r₁ at hfollow ⊢
    obtain ⟨hmoves, hstate⟩ := hfollow
    have hterm : r₁.state.term ≠ 0 := by
      rw [hstate, ← hgrant.1]
      exact hzero
    have hvoter : r₁.isVoter sender = true := by
      unfold isVoter
      rw [hstate]
      exact hsender
    have hvote := castVote_moves hmoves.sound output hterm hvoter
    exact (hmoves.trans hvote).trans (.same hvote.sound rfl rfl)
  · rw [if_neg hgrant]
    exact .same h rfl rfl

theorem receiveVote_settles (hzero : term ≠ 0) (sender : MemberId) (granted : Bool) :
    Settles (r.receiveVote sender term granted output) (Moves r output) := by
  unfold receiveVote
  split_ifs with hcount
  · have hinsert : Moves r output ({ r with votes := r.votes.insert sender }, output) :=
      .same h rfl rfl
    dsimp only
    split_ifs
    · refine .after hinsert (becomeLeader_settles hinsert.sound hcount.2.1 ?_)
      change r.state.term ≠ 0
      rw [← hcount.1]
      exact hzero
    · exact .ok hinsert
  · exact .ok (.refl h)

end FrankenGraph.Order

import FrankenGraph.Order.Refinement

/-!
# The append pipeline and commitment refine the protocol

Every method of a leader that only sends (`emit_flight`, `send_append`,
`broadcast`) leaves the persistent state and the role alone and releases ranges
and cuts of the leader's own log under fresh request identities. Counting a
commit (`advance_commit`) is the protocol's `count`, appending proposals its
`propose`.

Results:
* `broadcast_leads`, `sendAppend_leads`: sending keeps a step good.
* `advanceCommit_refines`, `appendProposals_refines`.
-/

namespace FrankenGraph.Order

open Protocol List Option Raft PersistentState Evolves

variable {C : Type} {cfg : Configuration} {g : Ghost C} {r : Raft C} {output : Output C}

/-! ## Bookkeeping -/

/-- The fields an invariant of a machine reads, up to its request counter and its
offered snapshot. -/
def Raft.represented (r : Raft C) :
    MemberId × PersistentState C × Role × MemberSet × Std.ExtTreeMap MemberId Progress compare :=
  (r.id, r.state, r.role, r.votes, r.progress)

variable {r' : Raft C}

/-- Fields outside the represented ones may change freely. -/
theorem NodeInv.congr (h : NodeInv cfg g r) (hrep : r'.represented = r.represented)
    (hrequest : r.request ≤ r'.request)
    (hincoming : ∀ pending, r'.incomingSnapshot = some pending → r.incomingSnapshot = some pending) : NodeInv cfg g r' := by
  simp only [represented, Prod.mk.injEq] at hrep
  obtain ⟨hid, hstate, hrole, hvotes, hprogress⟩ := hrep
  constructor
  · rw [hid, hstate]; exact h.durable
  · intro hr
    obtain ⟨hst, hun, hv, hp⟩ := h.candidate (hrole ▸ hr)
    exact ⟨by rw [hid, hstate]; exact hst, by rw [hid, hstate]; exact hun,
      by rw [hid, hstate, hvotes]; exact hv, by rw [hprogress, hp]⟩
  · intro hr
    obtain ⟨hl, ha, hc, hp, hq, ho⟩ := h.leading (hrole ▸ hr)
    exact ⟨by rw [hid, hstate]; exact hl, by rw [hid, hstate]; exact ha,
      by rw [hstate]; exact hc, by rw [hprogress, hstate]; exact hp,
      fun k q hk => (hq k q (hstate ▸ hk)).trans hrequest, by rw [hprogress, hid]; exact ho⟩
  · intro pending hp
    rw [hid, hrole]; exact h.incoming pending (hincoming pending hp)

/-- A machine that neither leads nor stands represents its persistent state. -/
theorem NodeInv.passive (h : NodeInv cfg g r) (hid : r'.id = r.id) (hstate : r'.state = r.state)
    (hcand : r'.role ≠ .candidate) (hlead : r'.role ≠ .leader)
    (hincoming : ∀ pending, r'.incomingSnapshot = some pending →
      r.incomingSnapshot = some pending ∧ r'.role = .follower) : NodeInv cfg g r' where
  durable := by rw [hid, hstate]; exact h.durable
  candidate hr := absurd hr hcand
  leading hr := absurd hr hlead
  incoming pending hp := by
    obtain ⟨hp, hr⟩ := hincoming pending hp
    rw [hid]
    exact ⟨hr, (h.incoming pending hp).2⟩

/-- The log of a leader is the log of its term. -/
theorem Good.leaderLog_eq (h : Good cfg g (r, output)) (hr : r.role = .leader) :
    g.view.log r.id = g.view.leaderLog r.state.term :=
  h.inv.leader_log (h.leading hr).leader h.durable.term

/-- Replacing what is tracked about one peer. -/
theorem LeaderInv.modify (h : LeaderInv g r) (peer : MemberId) {f : Progress → Progress}
    (hf : ∀ progress, r.progress[peer]? = some progress →
      ProgressInv g r.state.term peer (f progress)) :
    LeaderInv g { r with progress := r.progress.modify peer f } where
  leader := h.leader
  acked := h.acked
  commit := h.commit
  progress := by
    intro p progress hp
    simp only [Std.ExtTreeMap.getElem?_modify] at hp
    split_ifs at hp with heq
    · have hpp : peer = p := Std.LawfulEqCmp.eq_of_compare heq
      subst hpp
      obtain ⟨old, hold, rfl⟩ := map_eq_some_iff.mp hp
      exact hf old hold
    · exact h.progress p progress hp
  request := h.request
  others := by
    change (r.progress.modify peer f)[r.id]? = none
    rw [Std.ExtTreeMap.getElem?_modify]
    split_ifs with heq
    · rw [Std.LawfulEqCmp.eq_of_compare heq, h.others, map_none]
    · exact h.others

/-- A machine that leads: its state and what it tracks are all there is to show. -/
theorem Good.lead {g' : Ghost C} (h : Good cfg g (r, output)) (hr : r.role ≠ .follower)
    (hrole : r'.role = .leader) (hincoming : r'.incomingSnapshot = r.incomingSnapshot)
    (hev : Evolves cfg r.id g g') (hdurable : Durable cfg g' r'.id r'.state)
    (hlead : LeaderInv g' r') : Good cfg g' (r', output) where
  inv := hev.inv h.inv
  node :=
    { durable := hdurable
      candidate := fun hr => by rw [hrole] at hr; cases hr
      leading := fun _ => hlead
      incoming := fun pending hp => absurd (h.node.incoming pending (hincoming ▸ hp)).1 hr }
  sent := fun env henv => (h.sent env henv).mono hev.le

theorem Good.withLeader (h : Good cfg g (r, output)) (hid : r'.id = r.id)
    (hstate : r'.state = r.state) (hr : r.role = .leader) (hrole : r'.role = .leader)
    (hlead : LeaderInv g r') (hincoming : r'.incomingSnapshot = r.incomingSnapshot) :
    Good cfg g (r', output) := by
  refine h.lead (by simp [hr]) hrole hincoming (refl _ _) ?_ hlead
  rw [hid, hstate]
  exact h.durable

/-! ## Sending -/

/-- A sending method of a leader ran from `r` to `s`. -/
structure Leads (cfg : Configuration) (g : Ghost C) (r : Raft C) (s : Stepped C) : Prop where
  refines : Refines cfg g r s
  role : s.1.role = .leader
  state : s.1.state = r.state

variable {s : Stepped C}

theorem Leads.refl (h : Good cfg g s) (hr : s.1.role = .leader) :
    Leads cfg g s.1 s := ⟨Refines.refl h, hr, rfl⟩

theorem Leads.bind {s' : Stepped C} (h : Leads cfg g r s)
    (h' : ∀ g', Good cfg g' s → Leads cfg g' s.1 s') : Leads cfg g r s' := by
  obtain ⟨_, g₁, _, hg⟩ := h.refines
  exact ⟨h.refines.bind fun g' hg' => (h' g' hg').refines, (h' g₁ hg).role,
    (h' g₁ hg).state.trans h.state⟩

/-- A method that keeps a leader's step good keeps it good when it is run over a
list. -/
theorem Leads.foldlM {α : Type} {f : Stepped C → α → Except Error (Stepped C)} {l : List α}
    {s' : Stepped C} (hf : ∀ g' t t' a, a ∈ l → Good cfg g' t → t.1.role = .leader →
      Evolves cfg t.1.id g g' → t.1.state.term = s.1.state.term → f t a = .ok t' →
      Leads cfg g' t.1 t') (h : Good cfg g s) (hr : s.1.role = .leader)
    (hok : l.foldlM f s = .ok s') :
    Leads cfg g s.1 s' := by
  refine (foldlM_keeps (fun l' t => (∀ a ∈ l', a ∈ l) ∧ Leads cfg g s.1 t) ?_
    ⟨fun _ ha => ha, Leads.refl h hr⟩ hok).2
  rintro a rest t t' ⟨hsub, ht⟩ hfa
  obtain ⟨hfr, g₁, he, hg⟩ := ht.refines
  have hstep := hf g₁ t t' a (hsub a mem_cons_self) hg ht.role (by rw [hfr.id]; exact he)
    (by rw [ht.state]) hfa
  obtain ⟨hfr', g₂, he', hg'⟩ := hstep.refines
  rw [hfr.id] at he'
  exact ⟨fun b hb => hsub b (mem_cons_of_mem _ hb), ⟨hfr.trans hfr', g₂, he.trans he', hg'⟩,
    hstep.role, hstep.state.trans ht.state⟩

variable {prev last : ℕ}

theorem flightMessage_append {request : ℕ} {message : Message C}
    (hm : r.flightMessage (.append request prev last) = some message) :
    ∃ prevTerm entries,
      message = .append r.state.term request prev prevTerm entries r.state.commitIndex ∧
      r.state.termAt prev = some prevTerm ∧ r.state.baseIndex ≤ prev ∧ prev ≤ last ∧
      last ≤ r.state.lastIndex ∧
      entries = (r.state.entries.take (last - r.state.baseIndex)).drop
        (prev - r.state.baseIndex) := by
  simp only [flightMessage, bind_eq_bind, bind_eq_some_iff] at hm
  obtain ⟨prevTerm, hterm, hm⟩ := hm
  split_ifs at hm with hbase
  unfold slice at hm
  split_ifs at hm with hrange
  swap
  · cases hm
  simp only [bind_some, some.injEq] at hm
  unfold lastIndex
  exact ⟨prevTerm, _, hm.symm, hterm, by omega, by omega, by omega, rfl⟩

theorem drop_take_drop (L : List (Entry C)) {base : ℕ} (hb : base ≤ prev) (hl : base ≤ last) :
    ((L.drop base).take (last - base)).drop (prev - base) = (L.take last).drop prev := by
  rw [take_drop, drop_drop, Nat.add_sub_cancel' hl, Nat.add_sub_cancel' hb]

variable {peer : MemberId}

variable (h : Good cfg g (r, output))
include h

/-- The range an append carries is a range of the leader's log. -/
theorem Good.appendInv {request : ℕ} {message : Message C}
    (hr : r.role = .leader) (hf : FlightInv g r.state.term peer (.append request prev last))
    (hm : r.flightMessage (.append request prev last) = some message) :
    MsgInv g (r.envelope peer message) := by
  obtain ⟨prevTerm, entries, rfl, hterm, hbase, hpl, hlast, hent⟩ := flightMessage_append hm
  have hd := h.durable
  have hL := h.leaderLog_eq hr
  have hlen := hd.log.lastIndex
  rw [hd.log.entries, drop_take_drop _ hbase (hbase.trans hpl)] at hent
  have hcount : prev + entries.length = last := by
    rw [hent, length_drop, length_take]; omega
  exact
    { leader := (h.leading hr).leader
      issued := by rw [hcount]; exact hf
      reach := by rw [hcount, ← hL]; omega
      range := by rw [hcount, ← hL]; exact hent
      prevTerm := by rw [← hL]; exact (hd.log.termAt_some hterm).2
      commit := by rw [← hL]; exact hd.commit }

/-- `emit_flight` releases an outstanding request of the leader. -/
theorem emitFlight_leads {flight : InFlight} (hr : r.role = .leader)
    (hf : FlightInv g r.state.term peer flight)
    (hok : r.emitFlight peer flight output = .ok s) : Leads cfg g r s := by
  unfold emitFlight at hok
  cases hm : r.flightMessage flight with
  | none => rw [hm] at hok; cases hok
  | some message =>
    rw [hm] at hok
    cases flight with
    | append request prev last =>
      cases hok
      have hmsg := h.appendInv hr hf hm
      have hlead := (h.leading hr).modify peer
        (f := fun progress => { progress with sentCommit := r.state.commitIndex })
        fun progress hp => ⟨((h.leading hr).progress peer progress hp).matched,
          ((h.leading hr).progress peer progress hp).inFlight⟩
      have hgood : Good cfg g ({ r with progress := r.progress.modify peer fun progress =>
          { progress with sentCommit := r.state.commitIndex } }, output) :=
        h.withLeader rfl rfl hr hr hlead rfl
      exact ⟨⟨.same rfl, g, refl _ _, hgood.emit hmsg⟩, hr, rfl⟩
    | snapshot request cut =>
      cases hok
      simp only [flightMessage, some.injEq] at hm
      subst hm
      refine ⟨⟨Frame.refl _, g, refl _ _, h.emit ?_⟩, hr, rfl⟩
      exact ⟨(h.leading hr).leader, hf.1, hf.2⟩

/-- The snapshot of a leader is a cut of its term's log. -/
theorem Good.cutInv (hr : r.role = .leader) {cut : SnapshotCut}
    (hs : r.state.snapshot = some cut) : CutInv g r.state.term cut := by
  have hd := h.durable
  have hL := h.leaderLog_eq hr
  have hbi : r.state.baseIndex = cut.index := by simp [baseIndex, hs]
  have hbt : r.state.baseTerm = cut.term := by simp [baseTerm, hs]
  constructor
  · have := hd.log.base
    rwa [hbi, hbt, hL] at this
  · rw [← hL]
    exact hd.commit.take_eq (by rw [← hbi]; exact hd.base_commit) rfl

/-- A new request identity of the leader. -/
theorem Good.issue {q : Purpose} (hr : r.role = .leader) :
    g.request r.state.term (r.request + 1) = none ∧
      Good cfg (g.issue r.state.term (r.request + 1) q)
        ({ r with request := r.request + 1 }, output) := by
  have hlead := h.leading hr
  have hnew : g.request r.state.term (r.request + 1) = none := by
    cases hq : g.request r.state.term (r.request + 1) with
    | none => rfl
    | some q => exact absurd (hlead.request _ _ hq) (by omega)
  have hev : Evolves cfg r.id g (g.issue r.state.term (r.request + 1) q) :=
    Evolves.issue hlead.leader hnew
  refine ⟨hnew, h.lead (by simp [hr]) hr rfl hev { h.node.durable with term := h.durable.term } ?_⟩
  exact
    { hlead with
      progress := fun peer progress hp => (hlead.progress peer progress hp).mono hev.le
      request := by
        intro k q' hk
        simp only [Ghost.issue] at hk
        split_ifs at hk with heq
        · exact heq.2.le
        · exact (hlead.request k q' hk).trans (Nat.le_succ _) }

omit h in
theorem checkedAdd_eq_some {a b c : ℕ} (h : checkedAdd a b = some c) : c = a + b := by
  unfold checkedAdd at h
  split_ifs at h
  exact (some.inj h).symm

/-- The flight a leader opens next, and what its request stands for. -/
theorem nextFlight_inv (hr : r.role = .leader) (peer : MemberId)
    {next : ℕ} {flight : InFlight} (hn : r.nextFlight next = some flight) :
    ∃ q, (∀ g', g.Le g' → g'.request r.state.term r.request = some q →
      FlightInv g' r.state.term peer flight) := by
  unfold nextFlight at hn
  split_ifs at hn with hle
  · obtain ⟨cut, hs, rfl⟩ := map_eq_some_iff.mp hn
    exact ⟨.snapshot peer cut.index, fun g' hg hq => ⟨hq, (h.cutInv hr hs).mono hg⟩⟩
  · cases hn
    exact ⟨.append peer _, fun g' _ hq => hq⟩

omit h in
/-- The sending loop: one fresh request a pass. -/
theorem sendWindow_leads (room : ℕ) :
    ∀ {g : Ghost C} {r : Raft C} {output : Output C} {s : Stepped C},
      Good cfg g (r, output) → r.role = .leader →
      sendWindow peer room r output = .ok s → Leads cfg g r s := by
  induction room with
  | zero =>
    intro g r output s h hr hok
    cases hok
    exact Leads.refl h hr
  | succ room ih =>
    intro g r output s h hr hok
    rw [sendWindow] at hok
    cases hp : r.progress[peer]? with
    | none => rw [hp] at hok; cases hok
    | some progress =>
      simp only [hp] at hok
      split_ifs at hok with hstop
      · cases hok
        exact Leads.refl h hr
      cases hq : checkedAdd r.request 1 with
      | none => rw [hq] at hok; cases hok
      | some request =>
        obtain rfl := checkedAdd_eq_some hq
        simp only [hq] at hok
        cases hn : nextFlight { r with request := r.request + 1 } progress.next with
        | none => rw [hn] at hok; cases hok
        | some flight =>
          simp only [hn] at hok
          -- register the request, emit it, then record it in the window
          have hbump : Good cfg g ({ r with request := r.request + 1 }, output) :=
            ⟨h.inv, h.node.congr rfl (Nat.le_succ _) fun _ => id, h.sent⟩
          obtain ⟨q, hflight⟩ := nextFlight_inv hbump hr peer hn
          obtain ⟨hnew, hgood⟩ := h.issue (q := q) hr
          have hev : Evolves cfg r.id g (g.issue r.state.term (r.request + 1) q) :=
            issue (h.leading hr).leader hnew
          have hfl := hflight _ hev.le (Ghost.issue_self _ _ _ _)
          cases hem : emitFlight { r with request := r.request + 1 } peer flight output with
          | error e => rw [hem] at hok; cases hok
          | ok t =>
            rw [hem] at hok
            obtain ⟨r₁, output₁⟩ := t
            have hemit := emitFlight_leads hgood hr hfl hem
            have hpush : ∀ g', Good cfg g' (r₁, output₁) → FlightInv g' r₁.state.term peer flight →
                Good cfg g' ({ r₁ with progress := r₁.progress.modify peer fun progress =>
                  { progress with
                    next := if flight.isSnapshot then progress.next else flight.last + 1
                    inFlight := progress.inFlight ++ [flight] } }, output₁) := by
              intro g' hg' hfl'
              refine hg'.withLeader rfl rfl hemit.role hemit.role ((hg'.leading hemit.role).modify peer ?_) rfl
              intro old hold
              have hpr := (hg'.leading hemit.role).progress peer old hold
              refine ⟨hpr.matched, ?_⟩
              intro f hfm
              rcases mem_append.mp hfm with hfm | hfm
              · exact hpr.inFlight f hfm
              · rw [mem_singleton.mp hfm]; exact hfl'
            obtain ⟨hfr, g₁, he₁, hg₁⟩ := hemit.refines
            have hst : r₁.state = r.state := hemit.state
            have hgood₁ := hpush g₁ hg₁ (by rw [hst]; exact hfl.mono he₁.le)
            have hrest := ih hgood₁ hemit.role hok
            obtain ⟨hfr₂, g₂, he₂, hg₂⟩ := hrest.refines
            have hid : r₁.id = r.id := hfr.id
            have hbump : Frame r { r with request := r.request + 1 } := .same rfl
            have hwindow : Frame r₁ { r₁ with progress := r₁.progress.modify peer fun progress =>
                { progress with
                  next := if flight.isSnapshot then progress.next else flight.last + 1
                  inFlight := progress.inFlight ++ [flight] } } := .same rfl
            have hframe : Frame r s.1 := ((hbump.trans hfr).trans hwindow).trans hfr₂
            refine ⟨⟨hframe, g₂, (hev.trans he₁).trans ?_, hg₂⟩, hrest.role, hrest.state.trans hst⟩
            rw [← hid]; exact he₂

variable (hr : r.role = .leader)
include hr

theorem sendAppend_leads {retry : Bool}
    (hok : r.sendAppend peer output retry = .ok s) : Leads cfg g r s := by
  unfold sendAppend at hok
  cases hp : r.progress[peer]? with
  | none =>
    rw [hp] at hok
    cases hok
    exact Leads.refl h hr
  | some progress =>
    simp only [hp] at hok
    have hpr := (h.leading hr).progress peer progress hp
    cases hfold : (if retry then progress.inFlight else []).foldlM
        (fun (s : Stepped C) flight => s.1.emitFlight peer flight s.2) (r, output) with
    | error e => rw [hfold] at hok; cases hok
    | ok t =>
      rw [hfold] at hok
      have hretry : Leads cfg g r t := by
        refine Leads.foldlM (s := (r, output)) ?_ h hr hfold
        intro g' t t' flight hmem hg hrole he hterm hok
        refine emitFlight_leads hg hrole ?_ hok
        have hmem' : flight ∈ progress.inFlight := by
          cases retry with
          | false => cases hmem
          | true => exact hmem
        rw [hterm]
        exact (hpr.inFlight flight hmem').mono he.le
      exact hretry.bind fun g' hg => sendWindow_leads _ hg hretry.role hok

theorem broadcast_leads {retry : Bool}
    (hok : r.broadcast output retry = .ok s) : Leads cfg g r s := by
  unfold broadcast at hok
  refine Leads.foldlM (s := (r, output)) ?_ h hr hok
  intro g' t t' peer _ hg hrole _ _ hok
  exact sendAppend_leads hg hrole hok

/-! ## Commitment -/

/-- What a leader counts for a member is backed by an acknowledgement. -/
theorem matchedIndex_le (x : MemberId) : r.matchedIndex x ≤ g.view.acked x r.state.term := by
  unfold matchedIndex
  split_ifs with hx
  · rw [hx, (h.leading hr).acked, h.durable.log.lastIndex]
  · cases hp : r.progress[x]? with
    | none => simp
    | some progress => exact ((h.leading hr).progress x progress hp).matched

/-- `advance_commit` is the protocol's `count`. -/
theorem advanceCommit_refines :
    Refines cfg g r (r.advanceCommit.1, output) ∧ r.advanceCommit.1.role = .leader := by
  unfold advanceCommit
  dsimp only
  split_ifs with hadv
  swap
  · exact ⟨Refines.refl h, hr⟩
  obtain ⟨hgt, hterm⟩ := hadv
  refine ⟨?_, hr⟩
  have hd := h.durable
  have hlead := h.leading hr
  have hL := h.leaderLog_eq hr
  generalize hk : r.state.configuration.quorumIndex r.matchedIndex = k at hgt hterm ⊢
  obtain ⟨hbase, hlog⟩ := hd.log.termAt_some hterm
  have hcur := hd.term
  -- a quorum has acknowledged the candidate index, which is of this term
  have hchosen : (rules C cfg).Chosen g.view (g.view.cur r.id) (k - 1) := by
    rw [hcur]
    constructor
    · rw [hL] at hlog
      obtain ⟨j, rfl⟩ : ∃ j, k = j + 1 := ⟨k - 1, by omega⟩
      simp only [logTerm, map_eq_some_iff] at hlog
      exact hlog
    · have hq := r.state.configuration.quorumIndex_spec r.matchedIndex
      rw [hk, hd.configuration] at hq
      refine Configuration.IsQuorum.mono (fun x (hx : k ≤ r.matchedIndex x) => ?_) hq
      have := matchedIndex_le h hr x
      change k - 1 < g.view.acked x r.state.term
      omega
  have hact : Act (rules C cfg) r.id g.view (g.view.count r.id k) := by
    refine .count (by rw [hcur]; exact hlead.leader) ?_ (by omega) hchosen
    rw [hcur]
    exact hlead.commit.trans hgt.le
  have hev := act h.inv hact
  have hcount : (g.view.count r.id k).commit r.state.term = k := by
    simp [View.count, hcur]
  refine ⟨⟨rfl, rfl, rfl, rfl, hgt.le, fun hk => ⟨hk, rfl, rfl⟩⟩, _, hev,
    h.lead (by simp [hr]) hr rfl hev ?_ ?_⟩
  · exact
      { hd with
        term := hcur
        log := ⟨hd.log.base, hd.log.entries⟩
        base_commit := hbase
        commit := by
          refine Or.inr ⟨r.state.term, le_rfl, hcount.ge, logTerm_le hlog, ?_⟩
          change (g.view.log r.id).take k = (g.view.leaderLog r.state.term).take k
          rw [hL] }
  · exact
      { hlead with
        commit := hcount.le
        progress := fun peer progress hp => (hlead.progress peer progress hp).mono hev.le }

/-- The leader's log grows by entries of its own term. -/
theorem propose_refines
    (es : List (Entry C)) (hes : ∀ e ∈ es, e.term = r.state.term) (changed : Bool)
    (hchanged : changed = true ∨ changed = r.logChanged ∧ es = []) :
    Refines cfg g r ({ r with
      logChanged := changed
      state := { r.state with entries := r.state.entries ++ es } }, output) := by
  have hd := h.durable
  have hlead := h.leading hr
  have hL := h.leaderLog_eq hr
  have hcur := hd.term
  have hact : Act (rules C cfg) r.id g.view (g.view.propose r.id es) :=
    .propose (by rw [hcur]; exact hlead.leader) (by rw [hcur]; exact hes)
  have hev := act h.inv hact
  have hlog : (g.view.propose r.id es).log r.id = g.view.log r.id ++ es := by
    simp [View.propose]
  refine ⟨⟨rfl, rfl, rfl, rfl, le_rfl, ?_⟩, _, hev, h.lead (by simp [hr]) hr rfl hev ?_ ?_⟩
  · intro hk
    rcases hchanged with hc | ⟨hc, rfl⟩
    · rw [hc] at hk; cases hk
    · exact ⟨by rw [← hc]; exact hk, by simp, rfl⟩
  · exact
      { hd with
        term := hcur
        log := by
          change LogRep ((g.view.propose r.id es).log r.id) _
          rw [hlog]
          refine ⟨?_, ?_⟩
          · have := logTerm_extend (prefix_append (g.view.log r.id) es) hd.log.base_le
            exact this.trans hd.log.base
          · change r.state.entries ++ es = (g.view.log r.id ++ es).drop r.state.baseIndex
            rw [hd.log.entries, drop_append_of_le_length hd.log.base_le]
        commit := by
          change Protocol.Committed (g.view.propose r.id es) r.state.term
            ((g.view.propose r.id es).log r.id) r.state.commitIndex
          rw [hlog]
          exact (Committed.extend hd.commit (prefix_append _ _)).mono hev.le.view le_rfl }
  · exact
      { hlead with
        acked := by
          change (g.view.propose r.id es).acked r.id r.state.term =
            ((g.view.propose r.id es).log r.id).length
          rw [hlog]
          simp [View.propose, hcur]
        progress := fun peer progress hp => (hlead.progress peer progress hp).mono hev.le }

theorem appendProposals_refines
    {commands : List C} (hok : r.appendProposals commands output = .ok s) :
    Refines cfg g r s := by
  unfold appendProposals at hok
  have hpropose := propose_refines h hr
    (commands.map fun command => Entry.mk r.state.term (some command))
    (by intro e he; obtain ⟨c, _, rfl⟩ := mem_map.mp he; rfl) true (Or.inl rfl)
  refine hpropose.bind fun g₁ hg₁ => ?_
  obtain ⟨hadv, hrole⟩ := advanceCommit_refines hg₁ hr
  exact hadv.bind fun g₂ hg₂ => (broadcast_leads hg₂ hrole hok).refines

end FrankenGraph.Order

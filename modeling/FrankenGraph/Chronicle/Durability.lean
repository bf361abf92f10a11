import FrankenGraph.Chronicle.Coordinator

/-!
# Durability of commits

What holds of the directory and the coordinator along every run of `Chronicle.Coordinator`: whatever
a crash leaves of the log recovers a chain between the one settled by the last returned commit and
the one the last coordinator wrote, and the capsules that chain names are durable.

Results:
* `openWithVfs_spec`: opening succeeds and recovers that chain
* `commitWithCrash_spec`: a commit keeps the invariant wherever it stops, and settles its marker
  when it returns
* `SystemInv.run`: the invariant holds after every list of events
* `commit_durability`: what recovery finds after any run and any crash
* `open_idempotent`: opening again changes nothing
-/

namespace FrankenGraph.Chronicle

open List Option Function Except

variable (hash : List UInt8 → Digest) (sealing : List UInt8 → Option (ObjectId × List UInt8))

/-! ## The invariant -/

/-- The capsule file is present, with the whole container of the object it is named after. -/
def Disk.HasCapsule (disk : Disk) (oid : ObjectId) : Prop :=
  disk.capsuleDir.isSome ∧ ∃ plaintext container entry,
    sealing plaintext = some (oid, container) ∧ disk.capsules oid = some entry ∧
      entry.file.content = container

/-- The capsule file is complete and no crash can touch it. -/
def Disk.Sealed (disk : Disk) (oid : ObjectId) : Prop :=
  disk.capsuleDir = some true ∧ ∃ plaintext container,
    sealing plaintext = some (oid, container) ∧
      disk.capsules oid = some ⟨.stable container, true⟩

/-- The bytes are written frames and perhaps a torn one, and the chain of the frames lies between
two histories. -/
def Recoverable (lower upper : List ChainedMarker) (bytes : List UInt8) : Prop :=
  ∃ markers chain log tail, writeFrames hash .new markers = .ok (chain, log) ∧
    bytes = log ++ tail ∧ (tail = [] ∨ ReadsAsTorn tail) ∧
    lower <+: chain.entries ∧ chain.entries <+: upper

/-- Whatever a crash leaves of the log recovers at least `lower` and at most `upper`. -/
structure LogInv (lower upper : List ChainedMarker) (log : Option Entry) : Prop where
  absent : log = none → lower = []
  cuts : ∀ entry, log = some entry → entry.file.EveryCut (Recoverable hash lower upper)
  durable : ∀ entry, log = some entry → entry.durable = true ∨ lower = []

/-- The directory without a coordinator: `settled` is never lost, nothing but `upper` is ever found,
and every capsule of `upper` is there to stay. -/
structure DiskInv (settled upper : List ChainedMarker) (disk : Disk) : Prop where
  capsules : ∀ entry ∈ upper, disk.Sealed sealing entry.marker.effectSource.capsuleRef
  log : ∃ current, current <+: upper ∧ LogInv hash settled current disk.log ∧
    ∀ entry, disk.log = some entry → Recoverable hash current current entry.file.content

/-- The content of the log, if there is one. -/
def Disk.logContent (disk : Disk) : List UInt8 :=
  match disk.log with
  | none => []
  | some entry => entry.file.content

/-- The log holds the frames of the chain and of the marker whose write has begun. -/
def Written (chain : MarkerChain) (started : Option ChainedMarker) (content : List UInt8) : Prop :=
  ∃ markers log, writeFrames hash .new markers = .ok (chain, log) ∧
    match started with
    | none => content = log
    | some chained => ∃ chain' entry, writeFrame hash chain chained.marker = .ok (chain', entry) ∧
        chain'.entries = chain.entries ++ [chained] ∧ content = log ++ entry

/-- What the log of a live coordinator holds: its chain, and the marker it is writing. -/
def Store.upper (store : Store) : List ChainedMarker :=
  store.coordinator.chain.entries ++ store.started.toList

/-- A live coordinator and its directory. -/
structure StoreInv (settled : List ChainedMarker) (store : Store) : Prop where
  capsules : ∀ entry ∈ store.upper, store.disk.Sealed sealing entry.marker.effectSource.capsuleRef
  log : LogInv hash settled store.upper store.disk.log
  written : Written hash store.coordinator.chain store.started store.disk.logContent
  capsuleDir : store.disk.capsuleDir ≠ none
  poisoned : store.coordinator.poisoned = store.started.isSome
  parentSynced : store.coordinator.capsuleDirectoryParentSyncPending = false →
    store.disk.capsuleDir = some true
  logSynced : store.coordinator.commitLogParentSyncPending = false →
    ∃ entry, store.disk.log = some entry ∧ entry.durable = true
  settled : settled <+: store.coordinator.chain.entries

variable {hash sealing}

variable {disk : Disk} {oid : ObjectId}

theorem Disk.Sealed.hasCapsule (h : disk.Sealed sealing oid) : disk.HasCapsule sealing oid := by
  obtain ⟨hdir, plaintext, container, hseal, hcapsule⟩ := h
  exact ⟨by rw [hdir]; rfl, plaintext, container, _, hseal, hcapsule, rfl⟩

variable {upper : List ChainedMarker}

theorem Recoverable.mono {lower upper' : List ChainedMarker} {bytes : List UInt8}
    (h : Recoverable hash lower upper bytes) (hupper : upper <+: upper') :
    Recoverable hash lower upper' bytes := by
  obtain ⟨markers, chain, log, tail, hlog, hbytes, htail, hlower, hle⟩ := h
  exact ⟨markers, chain, log, tail, hlog, hbytes, htail, hlower, hle.trans hupper⟩

/-- A written log, whole, recovers everything. -/
theorem Written.recoverable {chain : MarkerChain} {started : Option ChainedMarker}
    {content : List UInt8} (h : Written hash chain started content) :
    Recoverable hash (chain.entries ++ started.toList) (chain.entries ++ started.toList)
      content := by
  obtain ⟨markers, log, hlog, hcontent⟩ := h
  cases started with
  | none =>
    refine ⟨markers, chain, log, [], hlog, by simpa using hcontent, .inl rfl, ?_, ?_⟩ <;> simp
  | some chained =>
    obtain ⟨chain', entry, hframe, hentries, rfl⟩ := hcontent
    refine ⟨markers ++ [chained.marker], chain', log ++ entry, [], ?_, by simp, .inl rfl, ?_, ?_⟩
    · exact writeFrames_append.mpr
        ⟨chain, log, entry, hlog, writeFrames_singleton.mpr hframe, rfl⟩
    · simp [hentries]
    · simp [hentries]

variable {settled : List ChainedMarker} {store : Store}

theorem StoreInv.diskInv (h : StoreInv hash sealing settled store) :
    DiskInv hash sealing settled store.upper store.disk := by
  refine ⟨h.capsules, store.upper, prefix_refl _, h.log, fun entry hentry => ?_⟩
  have hrecoverable := h.written.recoverable
  rw [Disk.logContent, hentry] at hrecoverable
  exact hrecoverable

/-! ## Crashes and openings -/

theorem Disk.Sealed.crash (h : disk.Sealed sealing oid)
    (cut : DiskCut) : (disk.crash cut).Sealed sealing oid := by
  obtain ⟨hdir, plaintext, container, hseal, hcapsule⟩ := h
  refine ⟨by simp [Disk.crash, hdir], plaintext, container, hseal, ?_⟩
  simp [Disk.crash, hdir, hcapsule, Entry.crash]

/-- Any crash leaves a directory that keeps the promise. -/
theorem DiskInv.crash (h : DiskInv hash sealing settled upper disk) (cut : DiskCut) :
    DiskInv hash sealing settled upper (disk.crash cut) := by
  refine ⟨fun entry hentry => (h.capsules entry hentry).crash cut, ?_⟩
  obtain ⟨current, hcurrent, hlog, hcontent⟩ := h.log
  cases hentry : disk.log with
  | none =>
    have hnone : (disk.crash cut).log = none := by simp [Disk.crash, hentry]
    rw [hnone]
    exact ⟨[], nil_prefix, ⟨fun _ => hlog.absent hentry, by simp, by simp⟩, by simp⟩
  | some entry =>
    by_cases hkeep : (entry.durable || cut.log.keepEntry) = true
    · have hsome : (disk.crash cut).log =
          some ⟨.stable (entry.file.survive cut.log.content), true⟩ := by
        simp only [Disk.crash, hentry, bind_some, Entry.crash, if_pos hkeep]
      obtain ⟨markers, chain, log, tail, hwrite, hbytes, htail, hlower, hupper⟩ :=
        hlog.cuts entry hentry cut.log.content
      rw [hsome]
      refine ⟨chain.entries, hupper.trans hcurrent, ⟨by simp, ?_, ?_⟩, ?_⟩
      · rintro _ ⟨⟩
        exact .stable ⟨markers, chain, log, tail, hwrite, hbytes, htail, hlower, prefix_refl _⟩
      · rintro _ ⟨⟩
        exact .inl rfl
      · rintro _ ⟨⟩
        exact ⟨markers, chain, log, tail, hwrite, hbytes, htail, prefix_refl _, prefix_refl _⟩
    · have hnone : (disk.crash cut).log = none := by
        simp only [Disk.crash, hentry, bind_some, Entry.crash, if_neg hkeep]
      have hempty : settled = [] := by
        rcases hlog.durable entry hentry with hdurable | hempty
        · simp [hdurable] at hkeep
        · exact hempty
      rw [hnone]
      exact ⟨[], nil_prefix, ⟨fun _ => hempty, by simp, by simp⟩, by simp⟩

theorem Disk.Sealed.of_eq {disk' : Disk} (h : disk.Sealed sealing oid)
    (hdir : disk'.capsuleDir = disk.capsuleDir) (hcapsules : disk'.capsules = disk.capsules) :
    disk'.Sealed sealing oid := by
  unfold Disk.Sealed at *
  rwa [hdir, hcapsules]

variable {entry : Entry}

theorem Entry.content_repaired {log tail : List UInt8}
    (h : entry.file.content = log ++ tail) : (entry.repaired tail.length).file.content = log := by
  unfold Entry.repaired
  split
  case isTrue hzero => rw [h, eq_nil_of_length_eq_zero hzero, append_nil]
  case isFalse => simp [h]

/-- Cutting the torn tail off keeps the promise: with or without the cut, the same chain is
found. -/
theorem LogInv.repaired {lower : List ChainedMarker} {chain : MarkerChain}
    {markers : List CommitMarker} {log tail : List UInt8}
    (h : LogInv hash lower chain.entries (some entry))
    (hlog : writeFrames hash .new markers = .ok (chain, log))
    (hcontent : entry.file.content = log ++ tail) (hlower : lower <+: chain.entries) :
    LogInv hash lower chain.entries (some (entry.repaired tail.length)) := by
  have hshort := Entry.content_repaired hcontent
  unfold Entry.repaired at *
  split
  case isTrue => exact h
  case isFalse hne =>
    rw [if_neg hne, File.content_truncate] at hshort
    refine ⟨by simp, ?_, ?_⟩
    · rintro _ ⟨⟩
      refine (h.cuts entry rfl).truncate ?_
      rw [hshort]
      exact ⟨markers, chain, log, [], hlog, by simp, .inl rfl, hlower, prefix_refl _⟩
    · rintro _ ⟨⟩
      exact h.durable entry rfl

/-- Opening succeeds, recovers a chain between the settled one and the last one written, and starts
a coordinator that keeps the promise. -/
theorem openWithVfs_spec (h : DiskInv hash sealing settled upper disk) :
    ∃ coordinator disk', openWithVfs hash disk = (.ok coordinator, disk') ∧
      coordinator.chain.entries <+: upper ∧
      StoreInv hash sealing settled ⟨disk', coordinator, none⟩ := by
  obtain ⟨current, hcurrent, hlog, hcontent⟩ := h.log
  -- the directory is there after the opening, and stays durable if it was
  have hcapsules : ∀ log : Option Entry, ∀ entry ∈ upper, Disk.Sealed sealing
      { disk with capsuleDir := some (disk.capsuleDir.getD false), log := log }
      entry.marker.effectSource.capsuleRef := by
    intro log entry hentry
    have hsealed := h.capsules entry hentry
    refine hsealed.of_eq ?_ rfl
    simp [hsealed.1]
  cases hentry : disk.log with
  | none =>
    refine ⟨_, _, by simp only [openWithVfs, hentry, map_none]; rfl, nil_prefix, ?_⟩
    have hempty := hlog.absent hentry
    refine ⟨by simp [Store.upper, MarkerChain.new], ?_, ?_, by simp, rfl, by simp, by simp, ?_⟩
    · exact ⟨fun _ => hempty, by simp, by simp⟩
    · exact ⟨[], [], rfl, rfl⟩
    · rw [hempty]
      exact nil_prefix
  | some entry =>
    obtain ⟨markers, chain, log, tail, hwrite, hbytes, htail, hlower, hupper⟩ :=
      hcontent entry hentry
    obtain rfl : chain.entries = current :=
      hupper.eq_of_length (Nat.le_antisymm hupper.length_le hlower.length_le)
    have hsettled : settled <+: chain.entries := by
      obtain ⟨_, _, _, _, _, _, _, hle, hge⟩ := (hlog.cuts entry hentry).content
      exact hle.trans hge
    have hrecover : recoverChain hash (some entry.file.content) true =
        .ok (chain, tail.length, some log) :=
      recoverChain_eq_ok.mpr ⟨markers, log, tail, hwrite, hbytes, htail, rfl, rfl⟩
    rw [hentry] at hlog
    refine ⟨_, _, by simp only [openWithVfs, hentry, map_some, hrecover]; rfl, hcurrent, ?_⟩
    refine ⟨?_, ?_, ?_, by simp, rfl, by simp, by simp, hsettled⟩
    · intro marker hmarker
      rw [Store.upper, toList_none, append_nil] at hmarker
      exact hcapsules _ marker (hcurrent.subset hmarker)
    · have hrepaired := hlog.repaired hwrite hbytes hsettled
      rwa [← append_nil chain.entries] at hrepaired
    · exact ⟨markers, log, hwrite, Entry.content_repaired hbytes⟩

/-! ## What a commit writes -/

variable (hash sealing) in
/-- What `prepare` establishes: the capsule is a sealed object, the marker names it, and the entry
is the frame of the marker that extends the chain. -/
structure Prepared.For (chain : MarkerChain) (prepared : Prepared) : Prop where
  capsule : ∃ plaintext, sealing plaintext = some (prepared.capsuleOid, prepared.container)
  capsuleRef : prepared.chained.marker.effectSource.capsuleRef = prepared.capsuleOid
  frame : ∃ chain', writeFrame hash chain prepared.chained.marker = .ok (chain', prepared.entry) ∧
    chain.adopt prepared.chained = .ok chain' ∧
    chain'.entries = chain.entries ++ [prepared.chained]
  markerRef : prepared.markerRef = prepared.chained.ref

theorem prepare_eq_ok {coordinator : CommitCoordinator} {call : CommitCall} {prepared : Prepared}
    (h : prepare hash sealing coordinator call = .ok prepared) :
    coordinator.poisoned = false ∧ prepared.For hash sealing coordinator.chain := by
  simp only [prepare, bind_eq_ok, refuse_eq_ok] at h
  obtain ⟨_, hpoisoned, commitSeq, -, _, -, h⟩ := h
  refine ⟨hpoisoned, ?_⟩
  split at h
  case h_1 => cases h
  case h_2 capsuleOid container hseal =>
    simp only [bind_eq_ok, refuse_eq_ok, mapError_ok_iff, bne_eq_false_iff_eq] at h
    obtain ⟨_, href, chained, hvalid, entry, hentry, _, -, hresult⟩ := h
    obtain rfl := ok.inj hresult
    obtain ⟨heads, hadopt⟩ := MarkerChain.adopt_of_validate hvalid
    have hmarker := (MarkerChain.validate_eq_ok hvalid).1
    rw [← hmarker] at hvalid hentry href
    exact ⟨⟨_, hseal⟩, href,
      ⟨_, writeFrame_eq_ok.mpr ⟨chained, hvalid, hentry, hadopt⟩, hadopt, rfl⟩, rfl⟩

theorem existingCapsulePrefixLen_eq_some {content expected : List UInt8} {n : ℕ} :
    existingCapsulePrefixLen content expected = some n ↔
      content <+: expected ∧ n = content.length := by
  rw [prefix_iff_eq_take, existingCapsulePrefixLen]
  by_cases hlong : content.length > expected.length
  · rw [if_pos hlong]
    refine ⟨by simp, fun ⟨heq, _⟩ => ?_⟩
    have hlen := congrArg length heq
    rw [length_take] at hlen
    omega
  · rw [if_neg hlong]
    by_cases heq : content = expected.take content.length
    · rw [if_neg (not_not.mpr heq), some.injEq]
      exact ⟨fun h => ⟨heq, h.symm⟩, fun h => h.2.symm⟩
    · rw [if_pos heq]
      exact ⟨by simp, fun h => absurd h.1 heq⟩

/-- The build step leaves the whole container. -/
theorem content_of_builtCapsule {existing : Option Entry} {referenced : Bool}
    {container : List UInt8} (h : builtCapsule existing referenced oid container = .ok entry) :
    entry.file.content = container := by
  unfold builtCapsule at h
  split at h
  case h_1 =>
    obtain rfl := ok.inj h
    simp [File.content, File.empty, File.append, Change.apply]
  case h_2 entry' =>
    split at h
    case h_1 => cases h
    case h_2 n hlen =>
      obtain ⟨hstart, rfl⟩ := existingCapsulePrefixLen_eq_some.mp hlen
      split_ifs at h with hfull href
      · obtain rfl := ok.inj h
        exact hstart.eq_of_length hfull
      · obtain rfl := ok.inj h
        obtain ⟨rest, hrest⟩ := hstart
        rw [File.content_append, ← hrest, drop_left]

/-- A capsule the chain refers to is reused or refused, never written. -/
theorem builtCapsule_of_referenced {entry' : Entry} {container : List UInt8}
    (h : builtCapsule (some entry) true oid container = .ok entry') : entry' = entry := by
  simp only [builtCapsule] at h
  split at h
  case h_1 => cases h
  case h_2 n hlen =>
    split_ifs at h with hfull
    exact (ok.inj h).symm

/-! ## Syncs -/

section

variable (h : disk.Sealed sealing oid)
include h

/-- A file that is as durable as it gets does not change when it is synced. -/
theorem Disk.Sealed.syncCapsule (oid' : ObjectId) : (disk.syncCapsule oid').Sealed sealing oid := by
  obtain ⟨hdir, plaintext, container, hseal, hcapsule⟩ := h
  refine ⟨hdir, plaintext, container, hseal, ?_⟩
  by_cases heq : oid = oid'
  · subst heq
    simp only [Disk.syncCapsule, update_self, hcapsule, map_some]
    rfl
  · simp only [Disk.syncCapsule, update_of_ne heq, hcapsule]

theorem Disk.Sealed.syncCapsuleDirectory : disk.syncCapsuleDirectory.Sealed sealing oid := by
  obtain ⟨hdir, plaintext, container, hseal, hcapsule⟩ := h
  exact ⟨hdir, plaintext, container, hseal, by simp [Disk.syncCapsuleDirectory, hcapsule]⟩

theorem Disk.Sealed.syncDirectory : disk.syncDirectory.Sealed sealing oid :=
  h.of_eq (by simp [Disk.syncDirectory, h.1]) rfl

end

section

variable (h : StoreInv hash sealing settled store)
include h

/-- A change of the capsule files that leaves those of the chain alone keeps the promise. -/
theorem StoreInv.capsuleChange
    (hlog : disk.log = store.disk.log) (hdir : disk.capsuleDir = store.disk.capsuleDir)
    (hsealed : ∀ entry ∈ store.upper, disk.Sealed sealing entry.marker.effectSource.capsuleRef) :
    StoreInv hash sealing settled { store with disk } := by
  refine ⟨hsealed, ?_, ?_, ?_, h.poisoned, ?_, ?_, h.settled⟩
  · rw [hlog]
    exact h.log
  · have hwritten := h.written
    rwa [Disk.logContent, ← hlog] at hwritten
  · rw [hdir]
    exact h.capsuleDir
  · rw [hdir]
    exact h.parentSynced
  · rw [hlog]
    exact h.logSynced

theorem StoreInv.syncCapsule (oid : ObjectId) :
    StoreInv hash sealing settled { store with disk := store.disk.syncCapsule oid } :=
  h.capsuleChange rfl rfl fun entry hentry => (h.capsules entry hentry).syncCapsule oid

theorem StoreInv.syncCapsuleDirectory :
    StoreInv hash sealing settled { store with disk := store.disk.syncCapsuleDirectory } :=
  h.capsuleChange rfl rfl fun entry hentry => (h.capsules entry hentry).syncCapsuleDirectory

theorem StoreInv.syncDirectory :
    StoreInv hash sealing settled { store with disk := store.disk.syncDirectory } := by
  have hdir := h.capsuleDir
  refine ⟨fun entry hentry => (h.capsules entry hentry).syncDirectory, ?_, ?_, ?_, h.poisoned, ?_,
    ?_, h.settled⟩
  · refine ⟨fun hnone => h.log.absent (map_eq_none_iff.mp hnone), ?_, ?_⟩
    · intro entry hentry
      obtain ⟨entry', hentry', rfl⟩ := map_eq_some_iff.mp hentry
      exact h.log.cuts entry' hentry'
    · intro entry hentry
      obtain ⟨entry', hentry', rfl⟩ := map_eq_some_iff.mp hentry
      exact .inl rfl
  · have hwritten := h.written
    unfold Disk.logContent Disk.syncDirectory at *
    cases hentry : store.disk.log <;> rw [hentry] at hwritten <;> exact hwritten
  · exact fun hnone => hdir (map_eq_none_iff.mp hnone)
  · intro _
    obtain ⟨durable, hdurable⟩ := ne_none_iff_exists'.mp hdir
    simp [Disk.syncDirectory, hdurable]
  · intro hpending
    obtain ⟨entry, hentry, -⟩ := h.logSynced hpending
    exact ⟨{ entry with durable := true }, by simp [Disk.syncDirectory, hentry], rfl⟩

theorem StoreInv.syncLog :
    StoreInv hash sealing settled { store with disk := store.disk.syncLog } := by
  refine ⟨fun entry hentry => (h.capsules entry hentry).of_eq rfl rfl, ?_, ?_, h.capsuleDir,
    h.poisoned, h.parentSynced, ?_, h.settled⟩
  · refine ⟨fun hnone => h.log.absent (map_eq_none_iff.mp hnone), ?_, ?_⟩
    · intro entry hentry
      obtain ⟨entry', hentry', rfl⟩ := map_eq_some_iff.mp hentry
      exact .sync (h.log.cuts entry' hentry').content
    · intro entry hentry
      obtain ⟨entry', hentry', rfl⟩ := map_eq_some_iff.mp hentry
      exact h.log.durable entry' hentry'
  · have hwritten := h.written
    unfold Disk.logContent Disk.syncLog at *
    cases hentry : store.disk.log <;> rw [hentry] at hwritten <;> exact hwritten
  · intro hpending
    obtain ⟨entry, hentry, hdurable⟩ := h.logSynced hpending
    exact ⟨{ entry with file := entry.file.sync }, by simp [Disk.syncLog, hentry], hdurable⟩

end

/-! ## The phases of a commit -/

section Phases

variable (hash sealing) in
/-- A coordinator with this chain, whose commit may have stopped anywhere. -/
structure Stopped (settled : List ChainedMarker) (chain : MarkerChain) (store : Store) : Prop where
  inv : StoreInv hash sealing settled store
  chain : store.coordinator.chain = chain

variable (hash sealing) in
/-- A coordinator in the middle of a commit on this chain. -/
structure During (settled : List ChainedMarker) (chain : MarkerChain)
    (started : Option ChainedMarker) (store : Store) : Prop
    extends Stopped hash sealing settled chain store where
  started : store.started = started

variable {settled : List ChainedMarker} {chain : MarkerChain} {started : Option ChainedMarker}
  {prepared : Prepared} {call : CommitCall}

variable {store : Store}

/-- A change of the directory that keeps the promise keeps it in the middle of a commit. -/
theorem During.onDisk (h : During hash sealing settled chain started store) {disk : Disk}
    (hinv : StoreInv hash sealing settled { store with disk }) :
    During hash sealing settled chain started { store with disk } :=
  ⟨⟨hinv, h.chain⟩, h.started⟩

theorem During.capsuleIsReferenced (h : During hash sealing settled chain none store)
    {entry : ChainedMarker} (hentry : entry ∈ store.upper) :
    store.coordinator.capsuleIsReferenced entry.marker.effectSource.capsuleRef = true := by
  rw [Store.upper, h.started, toList_none, append_nil] at hentry
  exact any_eq_true.mpr ⟨entry, hentry, by simp⟩

theorem buildCapsule_spec : Triple (During hash sealing settled chain none) (buildCapsule prepared)
      (fun _ store => During hash sealing settled chain none store ∧
        ∃ entry, store.disk.capsules prepared.capsuleOid = some entry ∧
          entry.file.content = prepared.container)
      (Stopped hash sealing settled chain) := by
  unfold buildCapsule
  refine .get_bind fun store => ?_
  dsimp only
  split
  case h_1 error hbuilt =>
    exact .throw fun _ h => h.2.toStopped
  case h_2 entry hbuilt =>
    refine .modify ?_
    rintro _ ⟨rfl, h⟩
    refine ⟨h.onDisk (h.inv.capsuleChange rfl rfl fun marker hmarker => ?_), entry, ?_⟩
    · obtain ⟨hdir, plaintext, container, hseal, hcapsule⟩ := h.inv.capsules marker hmarker
      refine ⟨hdir, plaintext, container, hseal, ?_⟩
      dsimp only
      by_cases heq : marker.marker.effectSource.capsuleRef = prepared.capsuleOid
      · rw [← heq, h.capsuleIsReferenced hmarker, hcapsule] at hbuilt
        rw [heq, update_self, builtCapsule_of_referenced hbuilt]
      · rw [update_of_ne heq, hcapsule]
    · exact ⟨update_self .., content_of_builtCapsule hbuilt⟩

theorem syncCapsuleParent_spec (hprepared : prepared.For hash sealing chain) :
    Triple (fun store => During hash sealing settled chain none store ∧
        store.disk.capsules prepared.capsuleOid = some ⟨.stable prepared.container, true⟩)
      (syncCapsuleParent call)
      (fun _ store => During hash sealing settled chain none store ∧
        store.disk.Sealed sealing prepared.capsuleOid)
      (Stopped hash sealing settled chain) := by
  obtain ⟨plaintext, hseal⟩ := hprepared.capsule
  unfold syncCapsuleParent
  refine .get_bind fun store => .ite (fun hpending => ?_) fun hpending => ?_
  · refine .bind (.stopIf fun _ h => h.2.1.toStopped) fun _ => ?_
    refine .bind (R := fun _ store => During hash sealing settled chain none store ∧
      store.disk.Sealed sealing prepared.capsuleOid) (.modify ?_) fun _ => .modify ?_
    · rintro _ ⟨rfl, h, hentry⟩
      obtain ⟨durable, hdurable⟩ := ne_none_iff_exists'.mp h.inv.capsuleDir
      exact ⟨h.onDisk h.inv.syncDirectory, by simp [Disk.syncDirectory, hdurable], plaintext,
        prepared.container, hseal, hentry⟩
    · rintro store ⟨h, hsealed⟩
      exact ⟨⟨⟨{ h.inv with parentSynced := fun _ => hsealed.1 }, h.chain⟩, h.started⟩, hsealed⟩
  · refine .pure ?_
    rintro _ ⟨rfl, h, hentry⟩
    exact ⟨h, h.inv.parentSynced hpending, plaintext, prepared.container, hseal, hentry⟩

/-- After D1 the capsule is there to stay. -/
theorem syncCapsule_spec (hprepared : prepared.For hash sealing chain) :
    Triple (fun store => During hash sealing settled chain none store ∧
        ∃ entry, store.disk.capsules prepared.capsuleOid = some entry ∧
          entry.file.content = prepared.container)
      (syncCapsule call prepared.capsuleOid)
      (fun _ store => During hash sealing settled chain none store ∧
        store.disk.Sealed sealing prepared.capsuleOid)
      (Stopped hash sealing settled chain) := by
  unfold syncCapsule
  -- the file, then its entry, then the directory it is in
  refine .bind (.stopIf fun _ h => h.1.toStopped) fun _ => ?_
  refine .bind (R := fun _ store => During hash sealing settled chain none store ∧
    ∃ durable, store.disk.capsules prepared.capsuleOid =
      some ⟨.stable prepared.container, durable⟩) (.modify ?_) fun _ => ?_
  · rintro store ⟨h, entry, hentry, hcontent⟩
    refine ⟨h.onDisk (h.inv.syncCapsule _), entry.durable, ?_⟩
    simp [Disk.syncCapsule, hentry, File.sync, hcontent]
  refine .bind (.stopIf fun _ h => h.1.toStopped) fun _ => ?_
  refine .bind (.modify ?_) fun _ => .bind (syncCapsuleParent_spec hprepared) fun _ => ?_
  · rintro store ⟨h, durable, hentry⟩
    refine ⟨h.onDisk h.inv.syncCapsuleDirectory, ?_⟩
    simp [Disk.syncCapsuleDirectory, hentry]
  refine .bind (.modify fun store h => ?_) fun _ => .stopIf fun _ h => h.1.toStopped
  exact ⟨h.1.onDisk (h.1.inv.syncCapsule _), h.2.syncCapsule _⟩

/-- A written log with the beginning of one more frame recovers the chain, or the chain and that
frame's marker. -/
theorem Recoverable.take_frame {chain' : MarkerChain} {markers : List CommitMarker}
    {log entry : List UInt8} {marker : CommitMarker}
    (hlog : writeFrames hash .new markers = .ok (chain, log))
    (hframe : writeFrame hash chain marker = .ok (chain', entry))
    (hentries : chain.entries <+: chain'.entries) (hsettled : settled <+: chain.entries)
    (kept : ℕ) : Recoverable hash settled chain'.entries (log ++ entry.take kept) := by
  by_cases hshort : kept < entry.length
  · have hne : entry.take kept ≠ entry := by
      intro heq
      have hlen := congrArg length heq
      rw [length_take] at hlen
      omega
    have htorn := torn_of_writeFrame hframe (List.take_prefix kept entry) hne
    exact ⟨markers, chain, log, entry.take kept, hlog, rfl, .inr htorn, hsettled, hentries⟩
  · rw [take_of_length_le (Nat.le_of_not_lt hshort)]
    have hall : writeFrames hash .new (markers ++ [marker]) = .ok (chain', log ++ entry) :=
      writeFrames_append.mpr ⟨chain, log, entry, hlog, writeFrames_singleton.mpr hframe, rfl⟩
    exact ⟨_, chain', _, [], hall, by simp, .inl rfl, hsettled.trans hentries, prefix_refl _⟩

theorem LogInv.created {lower upper : List ChainedMarker} {log : Option Entry}
    (h : LogInv hash lower upper log) :
    LogInv hash lower upper (some (log.getD ⟨.empty, false⟩)) := by
  cases log with
  | some entry => exact h
  | none =>
    have hempty := h.absent rfl
    refine ⟨by simp, ?_, ?_⟩
    · rintro _ ⟨⟩
      refine .stable ⟨[], .new, [], [], rfl, rfl, .inl rfl, ?_, nil_prefix⟩
      rw [hempty]
      exact nil_prefix
    · rintro _ ⟨⟩
      exact .inr hempty

/-- Beginning the write keeps the promise: any crash finds the chain, or the chain and the new
marker, whose capsule is there. -/
theorem StoreInv.writeEntry (h : StoreInv hash sealing settled store)
    (hstarted : store.started = none)
    (hprepared : prepared.For hash sealing store.coordinator.chain)
    (hsealed : store.disk.Sealed sealing prepared.capsuleOid) :
    StoreInv hash sealing settled (store.writeEntry prepared) := by
  obtain ⟨chain', hframe, -, hentries⟩ := hprepared.frame
  obtain ⟨markers, bytes, hbytes, hcontent⟩ := h.written
  have hupper : store.upper = store.coordinator.chain.entries := by
    rw [Store.upper, hstarted, toList_none, append_nil]
  have hupper' : (store.writeEntry prepared).upper = chain'.entries := hentries.symm
  have hgrow : store.coordinator.chain.entries <+: chain'.entries := by
    rw [hentries]
    exact prefix_append ..
  have hcontent' : (store.disk.log.getD ⟨.empty, false⟩).file.content = bytes := by
    rw [hstarted] at hcontent
    rw [← hcontent, Disk.logContent]
    cases store.disk.log <;> rfl
  have hlog := h.log.created
  refine ⟨?_, ⟨nofun, ?_, ?_⟩, ?_, h.capsuleDir, rfl, h.parentSynced, ?_, h.settled⟩
  · intro entry hentry
    rw [hupper', hentries, ← hupper, mem_append, mem_singleton] at hentry
    rcases hentry with hentry | rfl
    · exact (h.capsules entry hentry).of_eq rfl rfl
    · rw [hprepared.capsuleRef]
      exact hsealed.of_eq rfl rfl
  · rintro _ ⟨⟩
    rw [hupper']
    refine .append (fun cut => (hlog.cuts _ rfl cut).mono (hupper ▸ hgrow)) fun kept => ?_
    rw [hcontent']
    exact .take_frame hbytes hframe hgrow h.settled kept
  · rintro _ ⟨⟩
    exact hlog.durable (store.disk.log.getD ⟨.empty, false⟩) rfl
  · refine ⟨markers, bytes, hbytes, chain', prepared.entry, hframe, hentries, ?_⟩
    rw [← hcontent']
    exact File.content_append ..
  · intro hpending
    obtain ⟨entry, hentry, hdurable⟩ := h.logSynced hpending
    refine ⟨_, rfl, ?_⟩
    rw [hentry]
    exact hdurable

theorem writeMarker_spec (hprepared : prepared.For hash sealing chain) :
    Triple (fun store => During hash sealing settled chain none store ∧
        store.disk.Sealed sealing prepared.capsuleOid)
      (writeMarker prepared)
      (fun _ store => During hash sealing settled chain (some prepared.chained) store ∧
        ∃ entry, store.disk.log = some entry)
      (Stopped hash sealing settled chain) := by
  refine .get_bind fun _ => .bind (.modify ?_) fun _ => .pure fun _ h => h
  rintro store ⟨-, h, hsealed⟩
  exact ⟨⟨⟨h.inv.writeEntry h.started (h.chain ▸ hprepared) hsealed, h.chain⟩, rfl⟩, _, rfl⟩

theorem syncLogEntry_spec {logCreated : Bool} :
    Triple (fun store => During hash sealing settled chain started store ∧
        ∃ entry, store.disk.log = some entry)
      (syncLogEntry call logCreated)
      (fun _ store => During hash sealing settled chain started store ∧
        ∃ bytes, store.disk.log = some ⟨.stable bytes, true⟩)
      (Stopped hash sealing settled chain) := by
  unfold syncLogEntry
  refine .get_bind fun store => .ite (fun _ => ?_) fun hsynced => ?_
  · refine .bind (R := fun _ store => During hash sealing settled chain started store ∧
      ∃ bytes durable, store.disk.log = some ⟨.stable bytes, durable⟩) (.modify ?_) fun _ => ?_
    · rintro _ ⟨rfl, h, entry, hentry⟩
      exact ⟨h.onDisk h.inv.syncLog, entry.file.content, entry.durable,
        by simp [Disk.syncLog, hentry, File.sync]⟩
    refine .bind (.stopIf fun _ h => h.1.toStopped) fun _ => ?_
    refine .bind (R := fun _ store => During hash sealing settled chain started store ∧
      ∃ bytes, store.disk.log = some ⟨.stable bytes, true⟩) (.modify ?_) fun _ => .modify ?_
    · rintro store ⟨h, bytes, durable, hentry⟩
      exact ⟨h.onDisk h.inv.syncDirectory, bytes, by simp [Disk.syncDirectory, hentry]⟩
    · rintro store ⟨h, bytes, hentry⟩
      exact ⟨⟨⟨{ h.inv with logSynced := fun _ => ⟨_, hentry, rfl⟩ }, h.chain⟩, h.started⟩, bytes,
        hentry⟩
  · refine .bind (.modify ?_) fun _ => .stopIf fun _ h => h.1.toStopped
    rintro _ ⟨rfl, h, -⟩
    rw [Bool.or_eq_false_iff] at hsynced
    obtain ⟨entry, hentry, hdurable⟩ := h.inv.logSynced hsynced.2
    exact ⟨h.onDisk h.inv.syncLog, entry.file.content,
      by simp [Disk.syncLog, hentry, File.sync, hdurable]⟩

theorem syncMarker_spec {logCreated : Bool} :
    Triple (fun store => During hash sealing settled chain started store ∧
        ∃ entry, store.disk.log = some entry)
      (syncMarker call logCreated)
      (fun _ store => During hash sealing settled chain started store ∧
        ∃ bytes, store.disk.log = some ⟨.stable bytes, true⟩)
      (Stopped hash sealing settled chain) := by
  refine .bind (.stopIf fun _ h => h.1.toStopped) fun _ => .bind syncLogEntry_spec fun _ => ?_
  refine .modify ?_
  rintro store ⟨h, bytes, hentry⟩
  exact ⟨h.onDisk h.inv.syncLog, bytes, by simp [Disk.syncLog, hentry, File.sync]⟩

/-- Once the log is durable, all it holds is settled. -/
theorem StoreInv.settle (h : StoreInv hash sealing settled store) {chained : ChainedMarker}
    (hstarted : store.started = some chained) {bytes : List UInt8}
    (hlog : store.disk.log = some ⟨.stable bytes, true⟩) {chain' : MarkerChain} {entry : List UInt8}
    (hframe : writeFrame hash store.coordinator.chain chained.marker = .ok (chain', entry))
    (hentries : chain'.entries = store.coordinator.chain.entries ++ [chained]) :
    StoreInv hash sealing chain'.entries
      { store with
        coordinator := { store.coordinator with chain := chain', poisoned := false }
        started := none } := by
  have hupper : chain'.entries ++ [] = store.upper := by
    rw [append_nil, hentries, Store.upper, hstarted, toList_some]
  have hwritten := h.written
  rw [Disk.logContent, hlog, hstarted] at hwritten
  refine ⟨?_, ⟨?_, ?_, ?_⟩, ?_, h.capsuleDir, rfl, h.parentSynced, h.logSynced, prefix_refl _⟩
  · intro marker hmarker
    exact h.capsules marker (hupper ▸ hmarker)
  · intro hnone
    rw [hlog] at hnone
    cases hnone
  · intro log hlog'
    rw [hlog] at hlog'
    cases hlog'
    have hall := hwritten.recoverable
    rw [toList_some, ← hentries] at hall
    exact .stable (hall.mono (prefix_append ..))
  · intro log hlog'
    rw [hlog] at hlog'
    cases hlog'
    exact .inl rfl
  · obtain ⟨markers, front, hfront, chain'', entry', hframe', -, hbytes⟩ := hwritten
    rw [hframe] at hframe'
    cases hframe'
    refine ⟨markers ++ [chained.marker], front ++ entry, ?_, ?_⟩
    · exact writeFrames_append.mpr ⟨_, _, _, hfront, writeFrames_singleton.mpr hframe, rfl⟩
    · rw [Disk.logContent, hlog]
      exact hbytes

theorem adoptMarkerInto_spec (hprepared : prepared.For hash sealing chain) :
    Triple (fun store => During hash sealing settled chain (some prepared.chained) store ∧
        ∃ bytes, store.disk.log = some ⟨.stable bytes, true⟩)
      (adoptMarkerInto prepared)
      (fun ref store => ref = prepared.chained.ref ∧ ∃ chain',
        chain'.entries = chain.entries ++ [prepared.chained] ∧
        During hash sealing chain'.entries chain' none store)
      (Stopped hash sealing settled chain) := by
  refine .get_bind fun store => ?_
  intro _ hstore
  obtain ⟨rfl, h, bytes, hlog⟩ := hstore
  obtain rfl := h.chain
  obtain ⟨chain', hframe, hadopt, hentries⟩ := hprepared.frame
  dsimp only
  rw [hadopt]
  exact ⟨hprepared.markerRef, chain', hentries, ⟨h.inv.settle h.started hlog hframe hentries, rfl⟩,
    rfl⟩

theorem commitWithCrash_spec (call : CommitCall) :
    Triple (Stopped hash sealing settled chain) (commitWithCrash hash sealing call)
      (fun ref store => ∃ chained chain', ref = chained.ref ∧
        chain'.entries = chain.entries ++ [chained] ∧
        During hash sealing chain'.entries chain' none store)
      (Stopped hash sealing settled chain) := by
  unfold commitWithCrash
  refine .get_bind fun store => ?_
  split
  case h_1 error hprepare =>
    exact .throw fun _ h => h.2
  case h_2 prepared hprepare =>
    intro _ hstore
    obtain ⟨rfl, h⟩ := hstore
    obtain ⟨hpoisoned, hprepared⟩ := prepare_eq_ok hprepare
    rw [h.chain] at hprepared
    have hstarted : store.started = none := by
      rw [h.inv.poisoned] at hpoisoned
      exact isNone_iff_eq_none.mp (isSome_eq_false_iff.mp hpoisoned)
    refine Triple.weaken (.bind buildCapsule_spec fun _ => .bind (syncCapsule_spec hprepared)
      fun _ => .bind (writeMarker_spec hprepared) fun _ => .bind syncMarker_spec
      fun _ => adoptMarkerInto_spec hprepared) (fun _ h => h) ?_ (fun _ h => h) store
      ⟨h, hstarted⟩
    rintro ref store' ⟨href, chain', hentries, hduring⟩
    exact ⟨prepared.chained, chain', href, hentries, hduring⟩

/-- A poisoned coordinator refuses every commit and changes nothing. -/
theorem commitWithCrash_of_poisoned (store : Store) (h : store.coordinator.poisoned = true)
    (call : CommitCall) :
    (commitWithCrash hash sealing call).exec store = (.error .poisoned, store) := by
  have hprepare : prepare hash sealing store.coordinator call = .error .poisoned := by
    simp only [prepare, h, refuse, if_true]
    rfl
  rw [commitWithCrash, Effect.exec_get_bind, hprepare]
  rfl

end Phases

/-! ## Runs -/

variable (hash sealing) in
/-- The promise along a run, with or without a coordinator, and what the record says of it. -/
structure SystemInv (system : System) : Prop where
  disk : DiskInv hash sealing system.settled (system.held ++ system.started.toList) system.disk
  live : ∀ coordinator, system.coordinator = some coordinator →
    StoreInv hash sealing system.settled ⟨system.disk, coordinator, system.started⟩ ∧
      system.held = coordinator.chain.entries
  settled : system.settled <+: system.held
  returned : system.returned.Sublist (system.settled.map ChainedMarker.ref)
  recorded : ∀ entry ∈ system.held ++ system.started.toList,
    entry.ref ∈ system.returned ∨ entry.ref ∈ system.abandoned

theorem SystemInv.init : SystemInv hash sealing System.init := by
  refine ⟨⟨by simp [System.init], [], nil_prefix, ⟨fun _ => rfl, nofun, nofun⟩, nofun⟩, nofun,
    nil_prefix, List.Sublist.slnil, by simp [System.init]⟩

theorem SystemInv.commit {system : System} (h : SystemInv hash sealing system)
    {coordinator : CommitCoordinator} (hlive : system.coordinator = some coordinator)
    (call : CommitCall) : SystemInv hash sealing (system.commit hash sealing coordinator call) := by
  obtain ⟨hinv, hheld⟩ := h.live coordinator hlive
  have hspec := commitWithCrash_spec call _ ⟨hinv, rfl⟩
  rcases hexec : (commitWithCrash hash sealing call).exec
    ⟨system.disk, coordinator, system.started⟩ with ⟨result, store⟩
  rw [hexec] at hspec
  simp only [System.commit, hexec]
  cases result with
  | ok ref =>
    obtain ⟨chained, chain', rfl, hentries, hduring⟩ := hspec
    have hchain := hduring.chain
    have hstarted := hduring.started
    have hstore := hduring.inv
    rw [← hheld] at hentries
    rw [← hchain] at hstore hentries
    refine ⟨hstore.diskInv, ?_, prefix_refl _, ?_, ?_⟩
    · rintro _ ⟨⟩
      exact ⟨hstore, rfl⟩
    · dsimp only
      rw [hentries, map_append]
      exact (h.returned.trans (h.settled.map _).sublist).append (List.Sublist.refl _)
    · intro entry hentry
      dsimp only at hentry ⊢
      rw [hstarted, hentries, toList_none, append_nil, mem_append, mem_singleton] at hentry
      rcases hentry with hentry | rfl
      · have hold := h.recorded entry (mem_append_left _ hentry)
        exact hold.imp_left (mem_append_left _)
      · exact .inl (mem_append_right _ (mem_singleton_self _))
  | error error =>
    have hchain := hspec.chain
    have hstore := hspec.inv
    have hheld' : store.coordinator.chain.entries = system.held := by
      rw [hchain, hheld]
    refine ⟨hstore.diskInv, ?_, hstore.settled, h.returned, ?_⟩
    · rintro _ ⟨⟩
      exact ⟨hstore, rfl⟩
    intro entry hentry
    dsimp only at hentry ⊢
    rw [hheld'] at hentry
    cases hstarted : system.started with
    | none =>
      simp only [isNone_none, if_true]
      rcases mem_append.mp hentry with hentry | hentry
      · have hold := h.recorded entry (mem_append_left _ hentry)
        exact hold.imp_right (mem_append_left _)
      · exact .inr (mem_append_right _ (mem_map_of_mem hentry))
    | some chained =>
      -- an earlier call stopped this coordinator, so nothing was written
      have hpoisoned : coordinator.poisoned = true := by
        rw [hinv.poisoned, hstarted]
        rfl
      rw [commitWithCrash_of_poisoned ⟨system.disk, coordinator, system.started⟩ hpoisoned] at hexec
      obtain ⟨-, rfl⟩ := Prod.mk.inj hexec
      exact (h.recorded entry hentry).imp_right (mem_append_left _)

theorem SystemInv.step {system : System} (h : SystemInv hash sealing system) (event : Event) :
    SystemInv hash sealing (system.step hash sealing event) := by
  cases event with
  | commit call =>
    simp only [System.step]
    split
    case h_1 => exact h
    case h_2 coordinator hlive => exact h.commit hlive call
  | close => exact { h with live := nofun }
  | crash cut => exact { h with disk := h.disk.crash cut, live := nofun }
  | reopen =>
    simp only [System.step]
    split
    case h_1 => exact h
    case h_2 =>
      obtain ⟨coordinator, disk, hopen, hupper, hinv⟩ := openWithVfs_spec h.disk
      rw [hopen]
      refine ⟨hinv.diskInv, ?_, hinv.settled, h.returned, ?_⟩
      · rintro _ ⟨⟩
        exact ⟨hinv, rfl⟩
      · intro entry hentry
        rw [toList_none, append_nil] at hentry
        exact h.recorded entry (hupper.subset hentry)

theorem SystemInv.run (events : List Event) :
    SystemInv hash sealing (System.run hash sealing events) := by
  induction events using reverseRecOn with
  | nil => exact .init
  | append_singleton events event ih =>
    unfold System.run
    rw [foldl_append]
    exact ih.step event

/-! ## A run with an interrupted commit -/

/-- Every plaintext is its own container, under one name. -/
def sampleSeal (plaintext : List UInt8) : Option (ObjectId × List UInt8) :=
  some (chainOrigin, plaintext)

def sampleCall (crashAt : Option CrashPoint) : CommitCall :=
  ⟨[7], fun commitSeq _ => sampleMarker commitSeq, fun _ => .ok (), crashAt⟩

/-- A commit is interrupted between its write and D2, the process ends, and the next coordinator
commits. -/
def sampleEvents : List Event :=
  [.reopen, .commit (sampleCall (some .afterMarkerBeforeD2)), .close, .reopen,
    .commit (sampleCall none)]

/-- The crash that loses all it can. -/
def sampleCut : DiskCut := ⟨false, fun _ => ⟨false, ⟨0, 0⟩⟩, ⟨false, ⟨0, 0⟩⟩⟩

/-! ## Durability -/

/-- After any run, with or without a last crash, opening succeeds. The chain it recovers has the
marker of every commit that returned, in order, and besides them only markers of commits that were
interrupted after their write had begun. It extends the chain at the last return, and goes at most
one interrupted marker past the chain of the last coordinator. The capsule of each of its markers is
there and complete. A coordinator whose commit failed after its write had begun refuses every
commit, and changes nothing. -/
theorem commit_durability (events : List Event) (system : System)
    (hrun : system = System.run hash sealing events) :
    (∀ disk, (disk = system.disk ∨ ∃ cut, disk = system.disk.crash cut) →
      ∃ coordinator disk', openWithVfs hash disk = (.ok coordinator, disk') ∧
        system.returned.Sublist (coordinator.chain.entries.map ChainedMarker.ref) ∧
        (∀ entry ∈ coordinator.chain.entries,
          entry.ref ∈ system.returned ∨ entry.ref ∈ system.abandoned) ∧
        system.settled <+: coordinator.chain.entries ∧
        coordinator.chain.entries <+: system.held ++ system.started.toList ∧
        ∀ entry ∈ coordinator.chain.entries,
          disk'.HasCapsule sealing entry.marker.effectSource.capsuleRef) ∧
    (∀ coordinator call, system.coordinator = some coordinator → system.started.isSome →
      (commitWithCrash hash sealing call).exec ⟨system.disk, coordinator, system.started⟩ =
        (.error .poisoned, ⟨system.disk, coordinator, system.started⟩)) := by
  have h : SystemInv hash sealing system := hrun ▸ SystemInv.run events
  refine ⟨fun disk hdisk => ?_, fun coordinator call hlive hstarted => ?_⟩
  · have hinv : DiskInv hash sealing system.settled (system.held ++ system.started.toList) disk := by
      rcases hdisk with rfl | ⟨cut, rfl⟩
      · exact h.disk
      · exact h.disk.crash cut
    obtain ⟨coordinator, disk', hopen, hupper, hstore⟩ := openWithVfs_spec hinv
    refine ⟨coordinator, disk', hopen, ?_, ?_, hstore.settled, hupper, ?_⟩
    · exact h.returned.trans (hstore.settled.map _).sublist
    · exact fun entry hentry => h.recorded entry (hupper.subset hentry)
    · intro entry hentry
      exact (hstore.capsules entry (mem_append_left _ hentry)).hasCapsule
  · refine commitWithCrash_of_poisoned ⟨system.disk, coordinator, system.started⟩ ?_ call
    rw [(h.live coordinator hlive).1.poisoned]
    exact hstarted

theorem commit_durability_sample :
    let system := System.run sampleHash sampleSeal (sampleEvents.take 2)
    (∃ coordinator disk', openWithVfs sampleHash (system.disk.crash sampleCut) =
        (.ok coordinator, disk') ∧
      coordinator.chain.entries <+: system.held ++ system.started.toList) ∧
    ∃ coordinator, system.coordinator = some coordinator ∧
      (commitWithCrash sampleHash sampleSeal (sampleCall none)).exec
        ⟨system.disk, coordinator, system.started⟩ =
          (.error .poisoned, ⟨system.disk, coordinator, system.started⟩) := by
  intro system
  obtain ⟨hopen, hrefuse⟩ := commit_durability (sampleEvents.take 2) system rfl
  have hlive : system.coordinator.isSome := by decide +kernel
  have hstarted : system.started.isSome := by decide +kernel
  obtain ⟨coordinator, hcoordinator⟩ := isSome_iff_exists.mp hlive
  obtain ⟨recovered, disk', hrecovered, -, -, -, hupper, -⟩ :=
    hopen (system.disk.crash sampleCut) (.inr ⟨sampleCut, rfl⟩)
  exact ⟨⟨recovered, disk', hrecovered, hupper⟩, coordinator, hcoordinator,
    hrefuse coordinator (sampleCall none) hcoordinator hstarted⟩

/-- The interrupted commit's marker survives below the one that returned: the recovered chain is not
the returned markers and at most one more. -/
theorem interrupted_marker_below_returned : ∃ coordinator disk',
      openWithVfs sampleHash (System.run sampleHash sampleSeal sampleEvents).disk =
        (.ok coordinator, disk') ∧
      ¬ ∃ rest, rest.length ≤ 1 ∧ coordinator.chain.entries.map ChainedMarker.ref =
        (System.run sampleHash sampleSeal sampleEvents).returned ++ rest := by
  have hinv : SystemInv sampleHash sampleSeal (System.run sampleHash sampleSeal sampleEvents) :=
    .run sampleEvents
  obtain ⟨coordinator, disk', hopen, -, -⟩ := openWithVfs_spec hinv.disk
  have hreturned : (System.run sampleHash sampleSeal sampleEvents).returned =
      [(sampleSecond sampleHash).ref] := by decide +kernel
  have hrefs : (openWithVfs sampleHash (System.run sampleHash sampleSeal sampleEvents).disk).1.map
      (fun coordinator => coordinator.chain.entries.map ChainedMarker.ref) =
      .ok [(sampleFirst sampleHash).ref, (sampleSecond sampleHash).ref] := by decide +kernel
  refine ⟨coordinator, disk', hopen, ?_⟩
  rintro ⟨rest, -, heq⟩
  rw [hopen] at hrefs
  rw [hreturned] at heq
  have hne : (sampleFirst sampleHash).ref ≠ (sampleSecond sampleHash).ref := by decide +kernel
  exact hne (cons.inj ((ok.inj hrefs).symm.trans heq)).1

/-! ## Opening again -/

/-- **Opening settles a directory.** A second opening finds the same chain, discards nothing and
leaves the directory as it is. -/
theorem open_idempotent {disk disk' : Disk} {coordinator : CommitCoordinator}
    (h : openWithVfs hash disk = (.ok coordinator, disk')) :
    openWithVfs hash disk' = (.ok { coordinator with discardedTailBytes := 0 }, disk') := by
  obtain ⟨capsuleDir, capsules, log⟩ := disk
  cases log with
  | none =>
    obtain ⟨hok, rfl⟩ := Prod.mk.inj h
    obtain rfl := ok.inj hok
    rfl
  | some entry =>
    simp only [openWithVfs, Option.map_some] at h
    split at h
    · cases h
    next chain discarded file hrecover =>
    obtain ⟨hok, rfl⟩ := Prod.mk.inj h
    obtain rfl := ok.inj hok
    obtain ⟨markers, log, tail, hlog, hbytes, -, rfl, -⟩ := recoverChain_eq_ok.mp hrecover
    have hagain : recoverChain hash (some (entry.repaired tail.length).file.content) true =
        .ok (chain, 0, some log) := by
      rw [Entry.content_repaired hbytes]
      exact recoverChain_eq_ok.mpr ⟨markers, log, [], hlog, by simp, .inl rfl, rfl, rfl⟩
    simp only [openWithVfs, Option.map_some, hagain]
    rfl

/-- A log that a crash cut in its second frame. -/
def tornDisk : Disk where
  capsuleDir := some true
  capsules _ := none
  log := some ⟨.stable (sampleFrame (sampleFirst sampleHash) ++
    (sampleFrame (sampleSecond sampleHash)).take 100), true⟩

/-- The first opening keeps the first marker and discards the torn tail; the second finds nothing to
discard. -/
theorem open_idempotent_sample : ∃ coordinator disk,
    openWithVfs sampleHash tornDisk = (.ok coordinator, disk) ∧
      coordinator.chain.entries.map ChainedMarker.ref = [(sampleFirst sampleHash).ref] ∧
      coordinator.discardedTailBytes = 100 ∧
      openWithVfs sampleHash disk = (.ok { coordinator with discardedTailBytes := 0 }, disk) := by
  have hfirst : (openWithVfs sampleHash tornDisk).1.map (fun coordinator =>
      (coordinator.chain.entries.map ChainedMarker.ref, coordinator.discardedTailBytes)) =
      .ok ([(sampleFirst sampleHash).ref], 100) := by decide +kernel
  rcases hopen : openWithVfs sampleHash tornDisk with ⟨_ | coordinator, disk⟩ <;> rw [hopen] at hfirst
  · cases hfirst
  · obtain ⟨hchain, hdiscarded⟩ := Prod.mk.inj (ok.inj hfirst)
    exact ⟨coordinator, disk, rfl, hchain, hdiscarded, open_idempotent hopen⟩

end FrankenGraph.Chronicle

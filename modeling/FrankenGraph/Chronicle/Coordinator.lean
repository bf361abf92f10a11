import FrankenGraph.Chronicle.Recovery
import FrankenGraph.Library.CrashFile
import FrankenGraph.Library.Effect

/-!
# The commit coordinator

Model of `open_with_vfs` (L473-519), `existing_capsule_prefix_len` (L665-708) and
`commit_with_crash` (L1038-1259) of `crates/fgdb-chronicle/src/commit.rs`, over the part of the
database directory they use: the `capsules/` directory, the capsule files in it and `commits.log`.

A synced file keeps its content and a synced directory keeps its entries across a crash; of the rest
a crash keeps what it likes. Reads, writes and syncs do not fail on their own, every path is a
regular file with one name, and the writer lease keeps a second coordinator out. Sealing and the
container encoding are the parameter `sealing`, the digest is the parameter `hash`.

A run of the system is a list of events: commits that stop at any point or none, the loss of the
coordinator with or without a crash of the machine, and openings.
-/

namespace FrankenGraph.Chronicle

/-! ## The database directory -/

/-- A directory entry: its file, and whether the entry itself is durable. -/
structure Entry where
  file : File UInt8
  durable : Bool
deriving DecidableEq

/-- The database directory. `capsuleDir` says whether `capsules/` is there, and durably. -/
structure Disk where
  capsuleDir : Option Bool
  capsules : ObjectId → Option Entry
  log : Option Entry

namespace Disk

/-- A fresh database directory. -/
def empty : Disk := ⟨none, fun _ => none, none⟩

/-- Sync an open capsule file. -/
def syncCapsule (self : Disk) (oid : ObjectId) : Disk :=
  let synced := (self.capsules oid).map fun entry => { entry with file := entry.file.sync }
  { self with capsules := Function.update self.capsules oid synced }

/-- Sync the directory `capsules/`: its entries become durable. -/
def syncCapsuleDirectory (self : Disk) : Disk :=
  { self with
    capsules := fun oid => (self.capsules oid).map fun entry => { entry with durable := true } }

/-- Sync the database directory: the entries of `capsules/` and of the log become durable. -/
def syncDirectory (self : Disk) : Disk :=
  { self with
    capsuleDir := self.capsuleDir.map fun _ => true
    log := self.log.map fun entry => { entry with durable := true } }

/-- Sync the open log file. -/
def syncLog (self : Disk) : Disk :=
  { self with log := self.log.map fun entry => { entry with file := entry.file.sync } }

end Disk

/-- What a crash does with one file and its entry. -/
structure EntryCut where
  keepEntry : Bool
  content : Cut

/-- What a crash does with the directory. -/
structure DiskCut where
  keepCapsuleDir : Bool
  capsules : ObjectId → EntryCut
  log : EntryCut

/-- An unsynced entry may vanish; a kept file has the content the crash left, now on disk. -/
def Entry.crash (self : Entry) (cut : EntryCut) : Option Entry :=
  if self.durable || cut.keepEntry then some ⟨.stable (self.file.survive cut.content), true⟩
  else none

def Disk.crash (self : Disk) (cut : DiskCut) : Disk :=
  let capsuleDir := self.capsuleDir.bind fun durable =>
    if durable || cut.keepCapsuleDir then some true else none
  { capsuleDir
    -- with the directory go its files
    capsules := fun oid => capsuleDir.bind fun _ =>
      (self.capsules oid).bind fun entry => entry.crash (cut.capsules oid)
    log := self.log.bind fun entry => entry.crash cut.log }

/-! ## The coordinator -/

/-- `CrashPoint` (L368-389). -/
inductive CrashPoint
  | beforeCapsule
  | afterCapsuleBeforeD1
  | afterCapsuleFileSyncBeforeDirectorySync
  | afterCapsuleDirectorySyncBeforeParentDirectorySync
  | afterD1
  | afterMarkerBeforeD2
  | afterMarkerFileSyncBeforeDirectorySync
deriving DecidableEq

/-- `CommitCoordinator` (L402-421) without its handles, keys and validator. -/
structure CommitCoordinator where
  chain : MarkerChain
  discardedTailBytes : ℕ
  poisoned : Bool
  capsuleDirectoryParentSyncPending : Bool
  commitLogParentSyncPending : Bool
deriving DecidableEq

/-- `CommitDraft` (`validate.rs` L39-51). -/
structure CommitDraft where
  commitSeq : CommitSeq
  capsuleOid : ObjectId
  capsulePlaintext : List UInt8
  marker : CommitMarker

/-- One call of `commit_with_crash`: the plaintext, the marker callback, the validator in place and
the point to stop at. -/
structure CommitCall where
  plaintext : List UInt8
  markerFor : BitVec 64 → ObjectId → CommitMarker
  validator : CommitDraft → Except ValidationRejection Unit
  crashAt : Option CrashPoint

/-- A live coordinator and its directory. `started` is not in the source: it is the marker whose
write to the log has begun and whose commit has not returned. -/
structure Store where
  disk : Disk
  coordinator : CommitCoordinator
  started : Option ChainedMarker

/-- What a commit has established before it writes. -/
structure Prepared where
  capsuleOid : ObjectId
  container : List UInt8
  chained : ChainedMarker
  entry : List UInt8
  markerRef : MarkerRef
deriving DecidableEq

/-- The reference of a chained marker. -/
def ChainedMarker.ref (self : ChainedMarker) : MarkerRef :=
  ⟨self.markerOid, self.marker.commitSeq⟩

def EffectSource.capsuleRef : EffectSource → ObjectId
  | .localApply capsuleRef _ => capsuleRef

/-- `capsule_is_referenced` (L989-996). -/
def CommitCoordinator.capsuleIsReferenced (self : CommitCoordinator) (oid : ObjectId) : Bool :=
  self.chain.entries.any fun entry => entry.marker.effectSource.capsuleRef == oid

/-- `existing_capsule_prefix_len` (L665-708). -/
def existingCapsulePrefixLen (content expected : List UInt8) : Option ℕ :=
  if content.length > expected.length then none
  else if content ≠ expected.take content.length then none
  else some content.length

variable (hash : List UInt8 → Digest) (sealing : List UInt8 → Option (ObjectId × List UInt8))

/-- Everything `commit_with_crash` does before the first durable byte (L1045-1098). -/
def prepare (coordinator : CommitCoordinator) (call : CommitCall) :
    Except CommitError Prepared := do
  refuse coordinator.poisoned .poisoned
  let commitSeq ← coordinator.chain.nextCommitSeq.mapError .chain
  refuse (call.crashAt == some .beforeCapsule) (.io "crash: before capsule")
  match sealing call.plaintext with
  | none => .error .capsule
  | some (capsuleOid, container) => do
    let marker := call.markerFor commitSeq capsuleOid
    let markerCapsuleRef := marker.effectSource.capsuleRef
    refuse (markerCapsuleRef != capsuleOid) (.capsuleRefMismatch capsuleOid markerCapsuleRef)
    let chained ← (coordinator.chain.validate hash marker).mapError .chain
    let entry ← encodeEntry marker chained.chainHash
    (call.validator ⟨commitSeq, capsuleOid, call.plaintext, marker⟩).mapError .rejected
    return { capsuleOid, container, chained, entry, markerRef := chained.ref }

/-- Stop where the call asks to. -/
def stopAt (call : CommitCall) (point : CrashPoint) (message : String) :
    Effect CommitError Store Unit :=
  stopIf (call.crashAt == some point) (.io message)

def onDisk (change : Disk → Disk) : Effect CommitError Store Unit :=
  modify fun store => { store with disk := change store.disk }

def onCoordinator (change : CommitCoordinator → CommitCoordinator) :
    Effect CommitError Store Unit :=
  modify fun store => { store with coordinator := change store.coordinator }

/-- The capsule file the build step leaves (L1105-1164), or the refusal to touch it. -/
def builtCapsule (existing : Option Entry) (referenced : Bool) (oid : ObjectId)
    (container : List UInt8) : Except CommitError Entry :=
  match existing with
  | none => .ok ⟨File.empty.append container, false⟩
  | some entry =>
    match existingCapsulePrefixLen entry.file.content container with
    | none => .error (.capsulePathConflict oid)
    | some prefixLen =>
      if prefixLen = container.length then .ok entry
      else if referenced then .error (.capsulePathConflict oid)
      else .ok { entry with file := entry.file.append (container.drop prefixLen) }

/-- Build the capsule (L1103-1164). -/
def buildCapsule (prepared : Prepared) : Effect CommitError Store Unit := do
  let store ← get
  let built := builtCapsule (store.disk.capsules prepared.capsuleOid)
    (store.coordinator.capsuleIsReferenced prepared.capsuleOid) prepared.capsuleOid
    prepared.container
  match built with
  | .error error => throw error
  | .ok entry => onDisk fun disk =>
      { disk with capsules := Function.update disk.capsules prepared.capsuleOid (some entry) }

/-- The entry of `capsules/` becomes durable once after every opening (L1178-1186). -/
def syncCapsuleParent (call : CommitCall) : Effect CommitError Store Unit := do
  let store ← get
  if store.coordinator.capsuleDirectoryParentSyncPending then do
    stopAt call .afterCapsuleDirectorySyncBeforeParentDirectorySync
      "crash: capsule directory durable before database directory entry"
    onDisk Disk.syncDirectory
    onCoordinator fun coordinator => { coordinator with capsuleDirectoryParentSyncPending := false }
  else pure ()

/-- D1 (L1165-1192): the capsule, its entry and its directory become durable. -/
def syncCapsule (call : CommitCall) (oid : ObjectId) : Effect CommitError Store Unit := do
  stopAt call .afterCapsuleBeforeD1 "crash: before D1"
  onDisk fun disk => disk.syncCapsule oid
  stopAt call .afterCapsuleFileSyncBeforeDirectorySync
    "crash: capsule inode durable before directory entry"
  onDisk Disk.syncCapsuleDirectory
  syncCapsuleParent call
  onDisk fun disk => disk.syncCapsule oid
  stopAt call .afterD1 "crash: after D1"

/-- The coordinator poisoned and the marker's entry at the end of the log. -/
def Store.writeEntry (self : Store) (prepared : Prepared) : Store :=
  let log := self.disk.log.getD ⟨File.empty, false⟩
  { disk := { self.disk with log := some { log with file := log.file.append prepared.entry } }
    coordinator := { self.coordinator with poisoned := true }
    started := some prepared.chained }

/-- The entry is written, to a new log if there is none (L1196-1227). -/
def writeMarker (prepared : Prepared) : Effect CommitError Store Bool := do
  let store ← get
  modify fun store => store.writeEntry prepared
  return store.disk.log.isNone

/-- The log, and its entry if it may not be durable yet (L1231-1249). -/
def syncLogEntry (call : CommitCall) (logCreated : Bool) : Effect CommitError Store Unit := do
  let store ← get
  if logCreated || store.coordinator.commitLogParentSyncPending then do
    onDisk Disk.syncLog
    stopAt call .afterMarkerFileSyncBeforeDirectorySync
      "crash: marker-log inode durable before directory entry"
    onDisk Disk.syncDirectory
    onCoordinator fun coordinator => { coordinator with commitLogParentSyncPending := false }
  else do
    onDisk Disk.syncLog
    stopAt call .afterMarkerFileSyncBeforeDirectorySync "crash: marker-log inode durable"

/-- D2 (L1228-1253). -/
def syncMarker (call : CommitCall) (logCreated : Bool) : Effect CommitError Store Unit := do
  stopAt call .afterMarkerBeforeD2 "crash: before D2"
  syncLogEntry call logCreated
  onDisk Disk.syncLog

/-- The chain moves and the poison is lifted (L1255-1258). -/
def adoptMarkerInto (prepared : Prepared) : Effect CommitError Store MarkerRef := do
  let store ← get
  match store.coordinator.chain.adopt prepared.chained with
  | .error error => throw (.chain error)
  | .ok chain =>
    modify fun store =>
      { store with
        coordinator := { store.coordinator with chain, poisoned := false }
        started := none }
    return prepared.markerRef

/-- `commit_with_crash` (L1038-1259). -/
def commitWithCrash (call : CommitCall) : Effect CommitError Store MarkerRef := do
  let store ← get
  match prepare hash sealing store.coordinator call with
  | .error error => throw error
  | .ok prepared => do
    buildCapsule prepared
    syncCapsule call prepared.capsuleOid
    let logCreated ← writeMarker prepared
    syncMarker call logCreated
    adoptMarkerInto prepared

/-- The log after its torn tail of this many bytes is cut off (L1442-1453). -/
def Entry.repaired (entry : Entry) (discarded : ℕ) : Entry :=
  if discarded = 0 then entry
  else { entry with file := entry.file.truncate (entry.file.content.length - discarded) }

/-- `open_with_vfs` (L473-519): the coordinator or the error, and the directory after it. -/
def openWithVfs (disk : Disk) : Except CommitError CommitCoordinator × Disk :=
  let disk := { disk with capsuleDir := some (disk.capsuleDir.getD false) }
  match recoverChain hash (disk.log.map fun entry => entry.file.content) true with
  | .error error => (.error error, disk)
  | .ok (chain, discardedTailBytes, _) =>
    (.ok { chain, discardedTailBytes, poisoned := false,
           capsuleDirectoryParentSyncPending := true, commitLogParentSyncPending := true },
      { disk with log := disk.log.map fun entry => entry.repaired discardedTailBytes })

/-! ## Runs -/

/-- The directory, its coordinator if one is open, and a record of what happened:
the chain of the last coordinator and the marker whose write stopped it, the chain at the last
commit that returned, the references returned, and those of the commits that were interrupted after
their write to the log had begun. -/
structure System where
  disk : Disk
  coordinator : Option CommitCoordinator
  held : List ChainedMarker
  started : Option ChainedMarker
  settled : List ChainedMarker
  returned : List MarkerRef
  abandoned : List MarkerRef

inductive Event
  | commit (call : CommitCall)
  | close
  | crash (cut : DiskCut)
  | reopen

/-- A fresh directory. -/
def System.init : System := ⟨.empty, none, [], none, [], [], []⟩

/-- The system after a commit. -/
def System.commit (self : System) (coordinator : CommitCoordinator) (call : CommitCall) : System :=
  let (result, store) := (commitWithCrash hash sealing call).exec
    ⟨self.disk, coordinator, self.started⟩
  let after : System :=
    { self with
      disk := store.disk
      coordinator := some store.coordinator
      held := store.coordinator.chain.entries
      started := store.started }
  match result with
  | .ok ref =>
    { after with settled := after.held, returned := self.returned ++ [ref] }
  | .error _ =>
    -- the call's own write, not one that an earlier call began
    let begun := if self.started.isNone then store.started else none
    { after with abandoned := self.abandoned ++ begun.toList.map ChainedMarker.ref }

/-- One event. A commit needs an open coordinator, and a second one cannot be opened. -/
def System.step (self : System) : Event → System
  | .commit call =>
    match self.coordinator with
    | none => self
    | some coordinator => self.commit hash sealing coordinator call
  | .close => { self with coordinator := none }
  | .crash cut => { self with disk := self.disk.crash cut, coordinator := none }
  | .reopen =>
    match self.coordinator with
    | some _ => self
    | none =>
      match openWithVfs hash self.disk with
      | (.error _, disk) => { self with disk }
      | (.ok coordinator, disk) =>
        { self with
          disk
          coordinator := some coordinator
          held := coordinator.chain.entries
          started := none }

/-- The system after a list of events. -/
def System.run (events : List Event) : System :=
  events.foldl (System.step hash sealing) System.init

end FrankenGraph.Chronicle

import Rrflow.Lib.Effect
import Rrflow.Lsm.PointIndex
import Rrflow.Lsm.SegmentRead

/-!
The state of a database and the effects its operations are made of.

The disk is a set of named files: logs by starting sequence, segments and
manifests by identity, the `CURRENT` pointer and the checkpoints. A file appears
with its full content, because the code writes a temporary file and renames it;
a log grows by whole frames. The database is the memory of the process that
owns the directory.

An operation is a computation over both. An error does not undo what was done
before it, so the state after a failed operation is also what a process killed at
that point leaves on disk. Two streams stand for the environment: the clock readings
of time limits, and the answers of the admission checks for disk and memory.
-/

namespace Rrflow.Lsm

structure WalFrame where
  batch : WriteBatch
  firstSequence : Nat
  lastSequence : Nat

def walHeaderBytes : Nat := 16
def recordHeaderBytes : Nat := 32

def walBytes (frames : List WalFrame) : Nat :=
  walHeaderBytes + (frames.map (fun frame => recordHeaderBytes + frame.batch.encodedLen)).sum

structure Disk where
  wals : SortedMap Nat (List WalFrame)
  segments : SortedMap Digest SegmentContent
  manifests : SortedMap Digest Manifest
  current : Option CurrentPointer
  checkpoints : SortedMap Bytes Checkpoint

/-- The registered transactions of a database: the bag of pinned sequences and
the bytes they buffer. -/
structure TransactionOwnership where
  pins : List Nat := []
  bytes : Nat := 0
  deriving DecidableEq, Repr

/-- A transaction: the sequence it reads at and one final mutation per key. It
belongs to the database instance `owner`. -/
structure Transaction where
  snapshot : Nat
  writes : SortedMap Bytes (Option Bytes)
  writeSize : WriteBatchSize
  bufferedBytes : Nat
  owner : Nat

structure Database where
  options : DatabaseOptions
  manifest : Manifest
  /-- Starting sequence of the active log, which names its file. -/
  walStart : Nat
  walNextSequence : Nat
  walPayloadBytes : Nat
  memtable : Memtable
  segments : List Segment
  pointIndex : PointIndex
  reclamationPending : Bool
  writerRequiresReopen : Option String
  transactionSnapshots : TransactionOwnership
  /-- Segments held by live projected reads. -/
  activeReadViews : List (List SegmentDescriptor)
  /-- Distinguishes this instance from earlier ones on the same directory. -/
  owner : Nat

structure World where
  db : Database
  disk : Disk
  /-- Transactions held by callers. -/
  transactions : SortedMap Nat Transaction
  /-- Elapsed milliseconds at the next clock readings. -/
  readings : List Nat
  /-- Answers of the next admission checks; `some` is a denial with the numbers
  it reports. -/
  denials : List (Option (Nat × Nat × Nat))

abbrev Run := Eff World Error

namespace World

@[simp] def setDb (world : World) (db : Database) : World := { world with db }

@[simp] def setDisk (world : World) (disk : Disk) : World := { world with disk }

end World

open Eff

def modifyDb (f : Database → Database) : Run Unit := modify fun world => world.setDb (f world.db)

theorem wp_modifyDb {Q : Unit → World → Prop} {E : Error → World → Prop} {world : World}
    (f : Database → Database) : wp (modifyDb f) Q E world = Q () (world.setDb (f world.db)) := rfl

def modifyDisk (f : Disk → Disk) : Run Unit :=
  modify fun world => world.setDisk (f world.disk)

/-- The next clock reading; the clock stands still after the last one. -/
def nextReading : Run Nat := fun world =>
  match world.readings with
  | [] => (.ok 0, world)
  | elapsed :: rest => (.ok elapsed, { world with readings := rest })

def nextDenial : Run (Option (Nat × Nat × Nat)) := fun world =>
  match world.denials with
  | [] => (.ok none, world)
  | denial :: rest => (.ok denial, { world with denials := rest })

def admitDisk : Run Unit := do
  match ← nextDenial with
  | none => pure ()
  | some (available, required, reserve) => fail (.diskAdmission available required reserve)

/-- Admission of a mutable generation in the memory shared with read views. -/
def admitRetention : Run Unit := do
  match ← nextDenial with
  | none => pure ()
  | some (limit, observed, _) => fail (.mutableLimit .retainedAccountedBytes limit observed)

/-- The cooperative deadline of maintenance. -/
def checkElapsed : Run Unit := do
  let elapsed ← nextReading
  let world ← Eff.get
  ofExcept (world.db.options.compactionLimits.check .elapsedMs elapsed)

/-! ### Injected failures -/

inductive FailureMode
  | crash
  | storageFull
  deriving DecidableEq, Repr

def FailureMode.asStr : FailureMode → String
  | .crash => "crash"
  | .storageFull => "storage-full"

inductive WriteBoundary
  | prepared
  | walAppended
  | walSynced
  | visible
  deriving DecidableEq, Repr

def WriteBoundary.asStr : WriteBoundary → String
  | .prepared => "write.prepared"
  | .walAppended => "write.wal_appended"
  | .walSynced => "write.wal_synced"
  | .visible => "write.visible"

inductive FlushBoundary
  | walSynced
  | segmentSynced
  | successorWalSynced
  | manifestPublished
  deriving DecidableEq, Repr

def FlushBoundary.asStr : FlushBoundary → String
  | .walSynced => "flush.wal_synced"
  | .segmentSynced => "flush.segment_synced"
  | .successorWalSynced => "flush.successor_wal_synced"
  | .manifestPublished => "flush.manifest_published"

inductive CompactionBoundary
  | segmentSynced
  | manifestPublished
  deriving DecidableEq, Repr

def CompactionBoundary.asStr : CompactionBoundary → String
  | .segmentSynced => "compaction.segment_synced"
  | .manifestPublished => "compaction.manifest_published"

inductive SnapshotInstallBoundary
  | segmentsSynced
  | successorWalSynced
  | manifestPublished
  deriving DecidableEq, Repr

def SnapshotInstallBoundary.asStr : SnapshotInstallBoundary → String
  | .segmentsSynced => "snapshot.segments_synced"
  | .successorWalSynced => "snapshot.successor_wal_synced"
  | .manifestPublished => "snapshot.manifest_published"

/-- The failure configured for a boundary, if it is the one reached. The four
boundary types share this definition. -/
def injectAt {β : Type} [DecidableEq β] (asStr : β → String)
    (configured : Option (β × FailureMode)) (reached : β) : Run Unit :=
  match configured with
  | some (boundary, mode) =>
    if boundary = reached then fail (.injectedFailure mode.asStr (asStr boundary))
    else pure ()
  | none => pure ()

def injectFailure (configured : Option (FlushBoundary × FailureMode)) (reached : FlushBoundary) :
    Run Unit :=
  injectAt FlushBoundary.asStr configured reached

def injectWriteFailure (configured : Option (WriteBoundary × FailureMode))
    (reached : WriteBoundary) : Run Unit :=
  injectAt WriteBoundary.asStr configured reached

def injectCompactionFailure (configured : Option (CompactionBoundary × FailureMode))
    (reached : CompactionBoundary) : Run Unit :=
  injectAt CompactionBoundary.asStr configured reached

def injectSnapshotInstallFailure (configured : Option (SnapshotInstallBoundary × FailureMode))
    (reached : SnapshotInstallBoundary) : Run Unit :=
  injectAt SnapshotInstallBoundary.asStr configured reached

variable (codec : Codec)

/-- Reads a manifest file and checks that it is valid and has the identity it is
filed under. -/
def Disk.loadManifest (disk : Disk) (digest : Digest) : Except Error Manifest :=
  match disk.manifests.find? digest with
  | none => .error (.io "validating manifest file")
  | some manifest => do
      manifest.validate
      if manifest.digest codec ≠ digest then
        .error (.invalidManifest "manifest filename differs from its content identity")
      return manifest

def Disk.currentManifest (disk : Disk) : Except Error (Option (CurrentPointer × Manifest)) :=
  match disk.current with
  | none => .ok none
  | some pointer => do
      let manifest ← disk.loadManifest codec pointer.manifest
      if manifest.generation ≠ pointer.generation then
        .error (.invalidManifest "CURRENT generation differs from its manifest")
      return some (pointer, manifest)

variable (manifest : Manifest)

/-- Writes the manifest file; a file of that identity must hold the same
manifest. -/
def persistManifest : Run Unit := do
  let world ← Eff.get
  match world.disk.manifests.find? (manifest.digest codec) with
  | some existing =>
    if existing ≠ manifest then
      fail (.invalidManifest "existing manifest identity has different bytes")
  | none =>
    admitDisk
    modifyDisk fun disk =>
      { disk with manifests := disk.manifests.insert (manifest.digest codec) manifest }

def publishPointer : Run Unit := do
  admitDisk
  modifyDisk fun disk =>
    { disk with current := some ⟨manifest.digest codec, manifest.generation⟩ }

/-- Whether a manifest is the direct successor of the current one. -/
def extendsCurrent : Option (CurrentPointer × Manifest) → Bool
  | none => manifest.generation = 1 && manifest.parent = none
  | some (pointer, _) =>
    manifest.generation = pointer.generation + 1 && manifest.parent = some pointer.manifest

/-- Compare-and-swap of the current manifest: the file is durable before the
pointer names it. -/
def publish (expected : Option Digest) : Run Unit := do
  ofExcept manifest.validate
  let world ← Eff.get
  let current ← ofExcept (world.disk.currentManifest codec)
  let actual := current.map (fun current => current.1.manifest)
  if actual ≠ expected then fail (.manifestConflict expected actual)
  if !extendsCurrent manifest current then
    fail (.invalidManifest "manifest generation/parent does not extend CURRENT")
  persistManifest codec manifest
  publishPointer codec manifest

/-- Writes one segment file, or reuses the file that already has its content. -/
def writeSegment (versions : List (Bytes × List VersionedValue)) : Run SegmentContent := do
  let world ← Eff.get
  let groups ← ofExcept (encodeVersions codec.toSegmentCodec
    world.db.options.segmentRowGroupBudget versions)
  match world.disk.segments.find? (codec.sha256 groups) with
  | some content =>
    if codec.sha256 content.rowGroups ≠ codec.sha256 groups then
      fail (.invalidSegment "existing content-addressed segment has another identity")
    return content
  | none =>
    admitDisk
    let content ← ofExcept (validateContent groups)
    modifyDisk fun disk =>
      { disk with segments := disk.segments.insert (codec.sha256 groups) content }
    return content

/-- Creates the empty log a publication continues with. An interrupted
publication may have left one, which is reused when it is empty. -/
def successorWal (nextSequence : Nat) : Run Unit := do
  let world ← Eff.get
  match world.disk.wals.find? nextSequence with
  | some frames =>
    if !frames.isEmpty then
      fail (.corruption 0 "unpublished successor WAL contains data")
  | none =>
    admitDisk
    modifyDisk fun disk => { disk with wals := disk.wals.insert nextSequence [] }

def increment (n : Nat) (error : Error) : Run Nat :=
  match checkedAdd n 1 with
  | some next => pure next
  | none => fail error

variable (db : Database)

namespace Database

def snapshot : Nat := db.memtable.maximumSequence

def descriptors : List SegmentDescriptor :=
  db.segments.map (Segment.descriptor codec.toSegmentCodec)

def l0SegmentCount : Nat :=
  (db.segments.filter (fun segment => segment.level = 0)).length

def compactionDebtSegments : Nat :=
  db.l0SegmentCount - (db.options.compaction.l0CompactionTrigger - 1)

end Database

def ensureWriterReady : Run Unit := do
  let world ← Eff.get
  match world.db.writerRequiresReopen with
  | some boundary => fail (.recoveryRequired boundary)
  | none => pure ()

end Rrflow.Lsm

import Rrflow.Lsm.Write

/-!
Creation, recovery and snapshot transfer.

`openDatabase` reads a directory: the current manifest, its segments, and the
log it names, which is replayed on top of the durable sequence. It changes
nothing on disk. What it may read is bounded by the recovery limits. A snapshot
bundle carries a manifest with the contents of its segments; installing one
replaces the whole image by a newer one.
-/

namespace Rrflow.Lsm

open Eff

variable (codec : Codec) (options : DatabaseOptions)

def create (applicationFormat : Option Nat) : Except Error (Database × Disk) := do
  if applicationFormat = some 0 then
    .error (.invalidConfiguration "application format identity must be non-zero")
  options.validate
  let manifest ← newManifest 1 none 0 0 1 [] applicationFormat
  return (
    { options, manifest, walStart := 1, walNextSequence := 1, walPayloadBytes := 0
      memtable := .atSequence 0, segments := [], pointIndex := .new manifest.segments
      reclamationPending := true, writerRequiresReopen := none, transactionSnapshots := {}
      activeReadViews := [], owner := 0 },
    { wals := SortedMap.empty.insert 1 [], segments := ∅
      manifests := SortedMap.empty.insert (manifest.digest codec) manifest
      current := some ⟨manifest.digest codec, manifest.generation⟩, checkpoints := ∅ })

/-! ### Recovery -/

/-- What a recovery has read so far, and the clock. -/
structure Recovery where
  limits : RecoveryLimits
  files : Nat := 0
  readBytes : Nat := 0
  metadataBytes : Nat := 0
  frames : Nat := 0
  readings : List Nat

abbrev Recover := Eff Recovery Error

namespace Recover

def check (resource : RecoveryResource) (limit observed : Nat) : Recover Unit :=
  if observed > limit then fail (.recoveryLimit resource limit observed) else pure ()

def tick : Recover Unit := fun recovery =>
  match recovery.readings with
  | [] => (.ok (), recovery)
  | elapsed :: rest =>
    check .elapsedMs recovery.limits.elapsedMs elapsed { recovery with readings := rest }

def file (bytes : Nat) : Recover Unit := do
  tick
  let recovery ← Eff.get
  match checkedAdd recovery.files 1, checkedAdd recovery.readBytes bytes with
  | none, _ => fail (.invalidManifest "recovery file count overflow")
  | _, none => fail (.invalidManifest "recovery read charge overflow")
  | some files, some read =>
    check .files recovery.limits.files files
    check .readBytes recovery.limits.readBytes read
    Eff.modify fun recovery => { recovery with files, readBytes := read }

def metadata (bytes : Nat) : Recover Unit := do
  tick
  let recovery ← Eff.get
  match checkedAdd recovery.metadataBytes bytes with
  | none => fail (.invalidManifest "recovery metadata charge overflow")
  | some next =>
    check .metadataBytes recovery.limits.metadataBytes next
    file bytes
    Eff.modify fun recovery => { recovery with metadataBytes := next }
    tick

def wal (bytes : Nat) : Recover Unit := do
  let recovery ← Eff.get
  check .walBytes recovery.limits.walBytes bytes
  file bytes

def frame : Recover Unit := do
  tick
  let recovery ← Eff.get
  match checkedAdd recovery.frames 1 with
  | none => fail (.invalidManifest "recovery frame count overflow")
  | some frames =>
    check .walFrames recovery.limits.walFrames frames
    Eff.modify fun recovery => { recovery with frames }

/-- The current manifest, with its two files charged. -/
def currentManifest (disk : Disk) : Recover Manifest := do
  match disk.current with
  | none => fail (.invalidManifest "database has no CURRENT manifest")
  | some pointer =>
    metadata (codec.pointerBytes pointer)
    match disk.manifests.find? pointer.manifest with
    | none => fail (.io "validating manifest file")
    | some stored =>
      metadata (codec.manifestBytes stored)
      match ← ofExcept (disk.currentManifest codec) with
      | none => fail (.invalidManifest "database has no CURRENT manifest")
      | some current => return current.2

def openExpected (disk : Disk) (expected : SegmentDescriptor) : Recover Segment := do
  tick
  match disk.segments.find? expected.id with
  | none => fail (.io "validating database file")
  | some content =>
    if codec.bytes content.rowGroups ≠ expected.bytes then
      fail (.invalidSegment "segment physical size differs from its manifest descriptor")
    if codec.sha256 content.rowGroups ≠ expected.id then
      fail (.invalidSegment "segment content digest differs from its manifest descriptor")
    if content.descriptor codec.toSegmentCodec expected.level ≠ expected then
      fail (.invalidSegment "v6 segment differs from its manifest descriptor")
    return { content, level := expected.level }

structure Replay where
  memtable : Memtable
  expectedSequence : Nat
  offset : Nat := walHeaderBytes
  payloadBytes : Nat := 0

def replayFrame (limits : MutableLimits) (replay : Replay) (walFrame : WalFrame) :
    Recover Replay := do
  frame
  if walFrame.firstSequence ≠ replay.expectedSequence then
    fail (.corruption replay.offset ("non-contiguous sequence: expected " ++
      toString replay.expectedSequence ++ ", found " ++ toString walFrame.firstSequence))
  match checkedAdd replay.payloadBytes walFrame.batch.encodedLen with
  | none => fail (.corruption replay.offset "recovered payload byte count overflow")
  | some payloadBytes =>
    let memtable ← ofExcept (replay.memtable.applyOwnedRecovered walFrame.batch
      walFrame.firstSequence walFrame.lastSequence limits)
    match checkedAdd walFrame.lastSequence 1 with
    | none => fail (.corruption replay.offset "sequence overflow")
    | some expectedSequence =>
      return { memtable, expectedSequence, payloadBytes
               offset := replay.offset + recordHeaderBytes + walFrame.batch.encodedLen }

/-- Charges the segment files of a manifest before any of them is opened. -/
def chargeSegments (segments : List SegmentDescriptor) : Recover Nat :=
  Eff.foldlM (fun total segment => do
    file segment.bytes
    match checkedAdd total segment.bytes with
    | some total => pure total
    | none => fail (.invalidManifest "recovery segment byte count overflow")) 0 segments

def openSegments (disk : Disk) (segments : List SegmentDescriptor) : Recover (List Segment) :=
  Eff.foldlM (fun opened expected => do
    return opened ++ [← openExpected codec disk expected]) [] segments

def replayWal (limits : MutableLimits) (disk : Disk) (manifest : Manifest) : Recover Replay := do
  tick
  match disk.wals.find? manifest.walStartSequence with
  | none => fail (.io "validating database file")
  | some frames =>
    if manifest.walStartSequence = 0 then
      fail (.invalidBatch "WAL recovery sequence must be non-zero")
    else do
      wal (walBytes frames)
      let replay ← Eff.foldlM (replayFrame limits)
        { memtable := .atSequence manifest.durableSequence
          expectedSequence := manifest.walStartSequence } frames
      tick
      return replay

/-- The body of `open`, over the files of a directory. -/
def openDatabase (owner : Nat) (disk : Disk) : Recover Database := do
  ofExcept options.validate
  let manifest ← currentManifest codec disk
  let _ ← chargeSegments manifest.segments
  let segments ← openSegments codec disk manifest.segments
  let replay ← replayWal options.mutableLimits disk manifest
  return {
    options, manifest, walStart := manifest.walStartSequence
    walNextSequence := replay.expectedSequence, walPayloadBytes := replay.payloadBytes
    memtable := replay.memtable, segments, pointIndex := .new manifest.segments
    reclamationPending := true, writerRequiresReopen := none, transactionSnapshots := {}
    activeReadViews := [], owner }

end Recover

def openDatabase (owner : Nat) (disk : Disk) (readings : List Nat) : Except Error Database :=
  (Recover.openDatabase codec options owner disk { limits := options.recovery, readings }).1

/-- A new process on the directory of `world`: its memory is gone, its files are
not. -/
def reopen (world : World) (readings : List Nat) : Except Error World := do
  let db ← openDatabase codec options (world.db.owner + 1) world.disk readings
  return { world with db, transactions := ∅ }

/-! ### Snapshot bundles -/

/-- A manifest with the contents of its segments, in the manifest's order. -/
structure SnapshotBundle where
  sourceManifest : Manifest
  segments : List (SegmentDescriptor × SegmentContent)

def snapshotBundleMaxBytes : Nat := 1024 * 1024 * 1024
def maxBundleSegments : Nat := 1000000

variable (bundle : SnapshotBundle)

def SnapshotBundle.validate : Except Error Unit := do
  bundle.sourceManifest.validate
  if bundle.sourceManifest.walStartSequence
      ≠ saturatingAdd bundle.sourceManifest.durableSequence 1 then
    .error (.invalidManifest "snapshot manifest is not flush-bounded to an empty successor WAL")
  if bundle.segments.length > maxBundleSegments
      ∨ bundle.segments.length ≠ bundle.sourceManifest.segments.length then
    .error (.invalidManifest "snapshot bundle segment inventory does not match its manifest")
  let _ ← (bundle.segments.zip bundle.sourceManifest.segments).foldlM (fun _ pair => do
    if pair.1.1 ≠ pair.2 then
      .error (.invalidManifest "snapshot segment order or descriptor differs from its manifest")
    if pair.1.2.descriptor codec.toSegmentCodec pair.2.level ≠ pair.2 then
      .error (.invalidSegment "snapshot segment differs from its descriptor")
    return ()) ()
  if codec.bundleBytes bundle.sourceManifest
      (bundle.segments.map (fun segment => segment.2.rowGroups)) > snapshotBundleMaxBytes then
    .error (.invalidManifest "snapshot bundle exceeds 1073741824 bytes")

/-- The contents of the segments of a manifest, from their files. -/
def readSegments (segments : List SegmentDescriptor) :
    Run (List (SegmentDescriptor × SegmentContent)) := do
  let world ← Eff.get
  Eff.foldlM (fun read (descriptor : SegmentDescriptor) =>
    match world.disk.segments.find? descriptor.id with
    | none => fail (.io "reading segment")
    | some content => pure (read ++ [(descriptor, content)])) [] segments

variable (createdAt : Nat)

def exportSnapshotBundle : Run SnapshotBundle := do
  let _ ← flushMemtable codec createdAt
  let world ← Eff.get
  let segments ← readSegments world.db.manifest.segments
  let bundle : SnapshotBundle := { sourceManifest := world.db.manifest, segments }
  ofExcept (bundle.validate codec)
  return bundle

/-- Writes one segment of a bundle, or reuses the file with the same content. -/
def installSegment (segment : SegmentDescriptor × SegmentContent) : Run Segment := do
  if segment.2.descriptor codec.toSegmentCodec segment.1.level ≠ segment.1 then
    fail (.invalidSegment "snapshot segment differs from its descriptor")
  let world ← Eff.get
  match world.disk.segments.find? segment.1.id with
  | some existing =>
    if existing ≠ segment.2 then
      fail (.invalidSegment "existing snapshot segment has different bytes")
    return { content := existing, level := segment.1.level }
  | none =>
    admitDisk
    modifyDisk fun disk =>
      { disk with segments := disk.segments.insert segment.1.id segment.2 }
    return { content := segment.2, level := segment.1.level }

/-- The checks of an installation. The answer is whether the bundle is already
the state of the database. -/
def admitInstallation : Run Bool := do
  let world ← Eff.get
  let db := world.db
  if db.transactionSnapshots.pins ≠ [] then
    fail (.activeTransactions "snapshot installation")
  ofExcept (bundle.validate codec)
  if bundle.sourceManifest.applicationFormat ≠ db.manifest.applicationFormat then
    fail (.invalidManifest "snapshot application format differs from the target database")
  let sourceSequence := bundle.sourceManifest.durableSequence
  if sourceSequence = db.snapshot ∧ db.manifest.segments = bundle.sourceManifest.segments then
    return true
  if sourceSequence ≤ db.snapshot then
    fail (.invalidManifest ("snapshot sequence " ++ toString sourceSequence ++
      " does not advance local sequence " ++ toString db.snapshot))
  return false

/-- The second half of an installation: the installed segments replace the image
of the database. -/
def publishInstalled (failure : Option (SnapshotInstallBoundary × FailureMode))
    (imported : List Segment) : Run Manifest := do
  let world ← Eff.get
  let db := world.db
  let sourceSequence := bundle.sourceManifest.durableSequence
  let nextSequence ← increment sourceSequence (.invalidManifest "snapshot sequence overflowed")
  successorWal nextSequence
  injectSnapshotInstallFailure failure .successorWalSynced
  let manifest ← successorManifest codec "manifest generation overflowed"
    (max (max createdAt db.manifest.createdAt) bundle.sourceManifest.createdAt)
    sourceSequence nextSequence bundle.sourceManifest.segments
  publish codec manifest (some (db.manifest.digest codec))
  modifyDb fun db =>
    { db with
      walStart := nextSequence
      walNextSequence := nextSequence
      memtable := .atSequence sourceSequence
      walPayloadBytes := 0
      segments := imported
      pointIndex := .new manifest.segments
      manifest
      reclamationPending := true }
  injectSnapshotInstallFailure failure .manifestPublished
  return manifest

def installSnapshotBundleInner (failure : Option (SnapshotInstallBoundary × FailureMode)) :
    Run Manifest := do
  ensureWriterReady
  let installed ← admitInstallation codec bundle
  if installed then return (← Eff.get).db.manifest
  else do
    let imported ← Eff.foldlM (fun imported segment => do
      return imported ++ [← installSegment codec segment]) [] bundle.segments
    injectSnapshotInstallFailure failure .segmentsSynced
    publishInstalled codec bundle createdAt failure imported

/-- Names the current manifest, so that reclamation keeps it. -/
def checkpoint (name : Bytes) (createdAt : Nat) : Run Checkpoint := do
  let world ← Eff.get
  let digest := world.db.manifest.digest codec
  let (manifest, budget) ← loadManifestBounded codec {} digest
  if name = [] ∨ name.length > 128 then
    fail (.invalidManifest "invalid checkpoint name")
  let checkpoint : Checkpoint := { manifest := digest, generation := manifest.generation, createdAt }
  match world.disk.checkpoints.find? name with
  | some existing =>
    let _ ← readMetadata budget (codec.checkpointBytes existing)
    if existing ≠ checkpoint then
      fail (.invalidManifest "checkpoint already pins another manifest or instant")
    return existing
  | none =>
    let count := world.disk.checkpoints.keys.length
    if count ≥ world.db.options.checkpointEntries then
      fail (.checkpointLimit world.db.options.checkpointEntries (count + 1))
    admitDisk
    modifyDisk fun disk => { disk with checkpoints := disk.checkpoints.insert name checkpoint }
    return checkpoint

def releaseCheckpoint (name : Bytes) : Run Bool := do
  let world ← Eff.get
  if name = [] ∨ name.length > 128 then
    fail (.invalidManifest "invalid checkpoint name")
  if (world.disk.checkpoints.find? name).isNone then return false
  modifyDisk fun disk => { disk with checkpoints := disk.checkpoints.erase name }
  return true

end Rrflow.Lsm

import Rrflow.Lsm.Reclamation

/-!
The write path and transactions.

A write first makes room (reclamation, at most one compaction, a flush when the
mutable table is full), then appends one frame to the log, then applies the
batch to the mutable table. A transaction buffers one mutation per key; its
commit checks every written key for a version newer than its snapshot and then
writes the buffer as one batch.
-/

namespace Rrflow.Lsm

open Eff

inductive Durability
  | buffered
  | authoritative
  deriving DecidableEq, Repr

structure AppendReceipt where
  firstSequence : Nat
  lastSequence : Nat
  durable : Bool
  deriving DecidableEq, Repr

/-- The errors that only say that an optional merge does not fit. -/
def isOptionalMergeLimit : Error → Bool
  | .maintenanceLimit .inputBytes _ _ => true
  | .maintenanceLimit .inputLogicalBytes _ _ => true
  | .maintenanceLimit .inputVersions _ _ => true
  | .maintenanceLimit .outputSegments _ _ => true
  | .maintenanceLimit .elapsedMs _ _ => true
  | _ => false

variable (codec : Codec) (protectedSnapshots : Option (List Nat))

/-- The merge a write may trigger: it prunes only when the caller supplied the
snapshots to protect. -/
def compactForWrite : Run (Option CompactionOutcome) := do
  let world ← Eff.get
  compactSegmentsInner codec (protectedSnapshots.getD []) world.db.manifest.createdAt none false
    protectedSnapshots.isNone

def offerWriteCompaction : Run Unit :=
  Eff.recover (compactForWrite codec protectedSnapshots >>= fun _ => pure ())
    (fun error => if isOptionalMergeLimit error then some () else none)

/-- Whether the soft targets or the hard limits ask for a flush first. -/
def needsFlush (db : Database) (batch : WriteBatch) (charge : MutableCharge) : Bool :=
  db.memtable.versionCount ≠ 0 &&
    (saturatingAdd db.walPayloadBytes batch.encodedLen > db.options.maintenance.walPayloadMaxBytes
      || saturatingAdd db.memtable.versionCount batch.len
        > db.options.maintenance.memtableMaxVersions
      || db.options.mutableLimits.needsFlush db.memtable.charge charge)

/-- A busy writer offers one merge when a full source quantum has accumulated;
returns whether it did. -/
def offerForeground : Run Bool := do
  let world ← Eff.get
  let options := world.db.options
  let foregroundThreshold :=
    min options.compaction.maxInputSegments options.compactionLimits.l0Segments
  if world.db.compactionDebtSegments > 0 ∧ world.db.l0SegmentCount ≥ foregroundThreshold then
    offerWriteCompaction codec protectedSnapshots
    return true
  else return false

variable (batch : WriteBatch)

variable (charge : MutableCharge)

/-- Flushes a full table, and offers a merge after it unless one was offered
before. -/
def flushForWrite (protectedSnapshots : Option (List Nat)) (maintenanceOffered : Bool) :
    Run Unit := do
  let world ← Eff.get
  if needsFlush world.db batch charge then
    match ← flushMemtable codec world.db.manifest.createdAt with
    | some _ =>
      if maintenanceOffered then pure () else offerWriteCompaction codec protectedSnapshots
    | none => pure ()
  else pure ()

def checkL0Capacity : Run Unit := do
  let world ← Eff.get
  let limits := world.db.options.compactionLimits
  if world.db.l0SegmentCount ≥ limits.l0Segments then
    ofExcept (limits.check .l0Segments (saturatingAdd world.db.l0SegmentCount 1))
  else pure ()

/-- The maintenance a write does before it is admitted. -/
def makeRoom (protectedSnapshots : Option (List Nat)) : Run Unit := do
  reclaimIfPending codec
  let maintenanceOffered ← offerForeground codec protectedSnapshots
  flushForWrite codec batch charge protectedSnapshots maintenanceOffered
  checkL0Capacity
  reclaimIfPending codec

def prepareWrite (protectedSnapshots : Option (List Nat)) : Run Unit := do
  makeRoom codec batch charge protectedSnapshots
  let world ← Eff.get
  let total ← ofExcept (world.db.memtable.charge.checkedAdd charge)
  ofExcept (world.db.options.mutableLimits.check total)

variable (durability : Durability)

def appendWriteBatch : Run AppendReceipt := do
  let world ← Eff.get
  let firstSequence := world.db.walNextSequence
  match checkedAdd firstSequence (batch.len - 1) with
  | none => fail (.invalidBatch "sequence range overflow")
  | some lastSequence =>
    if firstSequence = 0 ∨ lastSequence < firstSequence ∨ lastSequence = u64Max then
      fail (.invalidBatch
        "sequence range must be non-zero, ordered, and leave room for its successor")
    admitDisk
    modify fun world =>
      { world with
        disk := { world.disk with
          wals := world.disk.wals.insert world.db.walStart
            ((world.disk.wals.find? world.db.walStart).getD []
              ++ [⟨batch, firstSequence, lastSequence⟩]) }
        db := { world.db with walNextSequence := lastSequence + 1 } }
    return { firstSequence, lastSequence, durable := durability = .authoritative }

/-- A failure after the frame was appended: the process must reopen. -/
def injectPostAppend (failure : Option (WriteBoundary × FailureMode)) (reached : WriteBoundary) :
    Run Unit :=
  match failure with
  | some (boundary, mode) =>
    if boundary = reached then do
      modifyDb fun db => { db with writerRequiresReopen := some reached.asStr }
      fail (.injectedFailure mode.asStr reached.asStr)
    else pure ()
  | none => pure ()

/-- Applies the appended batch; a failure leaves the frame in the log. -/
def applyAppended (receipt : AppendReceipt) : Run Unit := do
  let world ← Eff.get
  match world.db.memtable.applyWriteBatch batch receipt.firstSequence receipt.lastSequence with
  | .ok memtable => modifyDb fun db => { db with memtable }
  | .error _ => do
      modifyDb fun db => { db with writerRequiresReopen := some "mutable-publication" }
      fail (.recoveryRequired "mutable-publication")

/-- The part of a write after its frame is in the log. -/
def publishAppended (receipt : AppendReceipt) (failure : Option (WriteBoundary × FailureMode)) :
    Run AppendReceipt := do
  injectPostAppend failure .walAppended
  injectPostAppend failure .walSynced
  applyAppended batch receipt
  modifyDb fun db =>
    { db with walPayloadBytes := saturatingAdd db.walPayloadBytes batch.encodedLen }
  injectPostAppend failure .visible
  return receipt

/-- `write`, `write_owned` and the write of a commit: they differ in ownership
of the batch and in diagnostics only. -/
def writeInner (failure : Option (WriteBoundary × FailureMode))
    (protectedSnapshots : Option (List Nat)) : Run AppendReceipt := do
  ensureWriterReady
  let charge ← ofExcept (MutableCharge.batch batch)
  let world ← Eff.get
  ofExcept (world.db.options.mutableLimits.check charge)
  prepareWrite codec batch charge protectedSnapshots
  admitRetention
  injectWriteFailure failure .prepared
  let receipt ← appendWriteBatch batch durability
  publishAppended batch receipt failure

def write : Run AppendReceipt :=
  writeInner codec batch durability none none

/-! ### Transactions -/

/-- Charge of one buffered mutation: payloads plus the map entry and the
mutation handed to the batch. -/
def bufferCharge (key : Bytes) (value : Option Bytes) : Except Error Nat :=
  match ((checkedAdd key.length (value.elim 0 List.length)).bind (checkedAdd · 48)).bind
      (checkedAdd · 48) with
  | some n => .ok n
  | none => .error (.invalidTransaction "transaction buffer charge overflow")

/-- A handle that no live transaction has. -/
def freshHandle (transactions : SortedMap Nat Transaction) : Nat :=
  transactions.keys.foldr (fun id next => max (id + 1) next) 0

/-- Registers a transaction at the current sequence and returns its handle. -/
def beginTransaction : Run Nat := do
  let world ← Eff.get
  let ownership := world.db.transactionSnapshots
  let next := ownership.pins.length + 1
  if next > world.db.options.transactionLimits.active then
    fail (.transactionLimit .active world.db.options.transactionLimits.active next)
  else
    let snapshot := world.db.snapshot
    let id := freshHandle world.transactions
    modify fun world =>
      { world with
        db := { world.db with
          transactionSnapshots := { ownership with pins := snapshot :: ownership.pins } }
        transactions := world.transactions.insert id
          { snapshot, writes := ∅, writeSize := {}, bufferedBytes := 0, owner := world.db.owner } }
    return id

/-- The bytes reserved by all transactions after one of them changes. -/
def resizeReservation (total previous next limit : Nat) : Except Error Nat :=
  if total < previous ∨ u64Max < total - previous + next then
    .error (.invalidTransaction "transaction reservation overflow")
  else if total - previous + next > limit then
    .error (.transactionLimit .bufferedBytes limit (total - previous + next))
  else .ok (total - previous + next)

/-- The buffered bytes of one transaction after a mutation was replaced. -/
def replaceCharge (buffered old replacement : Nat) : Except Error Nat :=
  if buffered < old ∨ u64Max < buffered - old + replacement then
    .error (.invalidTransaction "transaction replacement charge overflow")
  else .ok (buffered - old + replacement)

/-- `put` and `delete`: a put carries a value. The transaction must be one of
the open database. -/
def stage (id : Nat) (key : Bytes) (value : Option Bytes) : Run Unit := do
  let world ← Eff.get
  match world.transactions.find? id with
  | none => fail (.invalidTransaction "no such transaction")
  | some transaction =>
    let previous := transaction.writes.find? key
    let size ← ofExcept (transaction.writeSize.withReplacement key previous value)
    let old ← ofExcept (previous.elim (.ok 0) (bufferCharge key))
    let replacement ← ofExcept (bufferCharge key value)
    let next ← ofExcept (replaceCharge transaction.bufferedBytes old replacement)
    let bytes ← ofExcept (resizeReservation world.db.transactionSnapshots.bytes
      transaction.bufferedBytes next world.db.options.transactionLimits.bufferedBytes)
    modify fun world =>
      { world with
        db := { world.db with
          transactionSnapshots := { world.db.transactionSnapshots with bytes } }
        transactions := world.transactions.insert id
          { transaction with
            writes := transaction.writes.insert key value
            writeSize := size
            bufferedBytes := next } }

/-- Forgets a transaction and releases its pin, as rollback and drop do. -/
def releaseTransaction (id : Nat) : Run Unit :=
  modify fun world =>
    match world.transactions.find? id with
    | none => world
    | some transaction =>
      { world with
        transactions := world.transactions.erase id
        db := if transaction.owner = world.db.owner then
            { world.db with transactionSnapshots :=
              { pins := world.db.transactionSnapshots.pins.erase transaction.snapshot
                bytes := world.db.transactionSnapshots.bytes - transaction.bufferedBytes } }
          else world.db }

/-- Newest sequence of a key that is still physically present. -/
def Database.latestSequenceForKey (db : Database) (key : Bytes) : Option Nat :=
  match db.memtable.getVersion key db.snapshot with
  | some version => some version.sequence
  | none =>
    db.segments.foldl (fun latest segment =>
      match segment.content.getSequence key db.snapshot with
      | some sequence =>
        if latest.all (fun latest => latest < sequence) then some sequence else latest
      | none => latest) none

/-- The first written key, in key order, with a version after the snapshot. -/
def Database.findConflict (db : Database) (snapshot : Nat) (keys : List Bytes) : Option Nat :=
  keys.findSome? fun key =>
    (db.latestSequenceForKey key).filter (fun sequence => snapshot < sequence)

def Transaction.takeMutations (transaction : Transaction) : List Mutation :=
  transaction.writes.toList.map fun write =>
    match write.2 with
    | some value => .put write.1 value
    | none => .delete write.1

structure TransactionCommit where
  snapshotSequence : Nat
  mutationCount : Nat
  receipt : Option AppendReceipt
  deriving DecidableEq, Repr

/-- The commit of a transaction value; the caller's handle is consumed. -/
def commitTransactionInner (transaction : Transaction) (durability : Durability)
    (failure : Option (WriteBoundary × FailureMode)) (protectedSnapshots : Option (List Nat)) :
    Run TransactionCommit := do
  ensureWriterReady
  let world ← Eff.get
  if transaction.owner ≠ world.db.owner then fail .transactionDatabaseMismatch
  match world.db.findConflict transaction.snapshot transaction.writes.keys with
  | some sequence => fail (.transactionConflict transaction.snapshot sequence)
  | none =>
    let mutationCount := transaction.writes.toList.length
    if mutationCount = 0 then
      return { snapshotSequence := transaction.snapshot, mutationCount, receipt := none }
    let batch ← ofExcept (WriteBatch.new transaction.takeMutations)
    let receipt ← writeInner codec batch durability failure protectedSnapshots
    return { snapshotSequence := transaction.snapshot, mutationCount, receipt := some receipt }

/-- Whatever the outcome, the transaction ends with the commit. -/
def commitTransaction (id : Nat) (durability : Durability)
    (failure : Option (WriteBoundary × FailureMode)) (protectedSnapshots : Option (List Nat)) :
    Run TransactionCommit := fun world =>
  match world.transactions.find? id with
  | none => (.error (.invalidTransaction "no such transaction"), world)
  | some transaction =>
    match commitTransactionInner codec transaction durability failure protectedSnapshots world with
    | (outcome, world) => (outcome, (releaseTransaction id world).2)

end Rrflow.Lsm

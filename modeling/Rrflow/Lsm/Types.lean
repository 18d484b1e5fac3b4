import Rrflow.Lib.Octets

/-!
Data of the physical store: byte strings, mutations and batches, versions,
errors, limits and options.

Machine integers are natural numbers. Where the code computes with
`checked_add` the overflow is an error of the model too; where it saturates,
`saturatingAdd` saturates at the same bound.
-/

namespace Rrflow.Lsm

open List

abbrev Byte := Fin 256

/-- A byte string, ordered lexicographically as `Vec<u8>` is. -/
abbrev Bytes := List Byte

/-- The hexadecimal text of a SHA-256 digest. Its length is not fixed here, so
that a fingerprint without collisions exists. -/
abbrev Digest := List Nat

instance : LawfulBEq Digest := inferInstance

def u64Max : Nat := 2 ^ 64 - 1

/-- `u64::checked_add` and `usize::checked_add`. -/
def checkedAdd (a b : Nat) : Option Nat := if a + b ≤ u64Max then some (a + b) else none

/-- `u64::saturating_add` and `usize::saturating_add`. -/
def saturatingAdd (a b : Nat) : Nat := min (a + b) u64Max

theorem checkedAdd_eq_none {a b : Nat} (h : checkedAdd a b = none) : u64Max < a + b := by
  unfold checkedAdd at h
  split at h
  · simp at h
  · omega

theorem checkedAdd_eq_some {a b c : Nat} (h : checkedAdd a b = some c) :
    c = a + b ∧ a + b ≤ u64Max := by
  unfold checkedAdd at h
  split at h
  · exact ⟨(Option.some.inj h).symm, ‹_›⟩
  · simp at h

inductive WriteBatchResource
  | encodedBytes
  | operations
  deriving DecidableEq, Repr

inductive MutableResource
  | accountedBytes
  | versions
  | retainedAccountedBytes
  | retainedVersions
  | generations
  deriving DecidableEq, Repr

inductive MaintenanceResource
  | inputBytes
  | inputLogicalBytes
  | inputVersions
  | outputSegments
  | elapsedMs
  | l0Segments
  deriving DecidableEq, Repr

inductive ReclamationResource
  | inventoryEntries
  | metadataBytes
  | deleteBytes
  | elapsedMs
  deriving DecidableEq, Repr

inductive RecoveryResource
  | metadataBytes
  | files
  | readBytes
  | walBytes
  | walFrames
  | elapsedMs
  deriving DecidableEq, Repr

inductive TransactionResource
  | active
  | bufferedBytes
  deriving DecidableEq, Repr

inductive ProjectedReadResource
  | activeViews
  | ranges
  | runs
  | pinnedBytes
  | versionsExamined
  | pageRequests
  | pageLogicalBytes
  | outputRows
  | outputBufferBytes
  | batchRows
  | batchAllocatedBytes
  | retainedOutputBytes
  deriving DecidableEq, Repr

/-- The errors of the physical store that the modelled operations return. -/
inductive Error
  | checkpointLimit (limit observed : Nat)
  | transactionLimit (resource : TransactionResource) (limit observed : Nat)
  | diskAdmission (available required reserve : Nat)
  | io (reason : String)
  | corruption (offset : Nat) (reason : String)
  | recoveryLimit (resource : RecoveryResource) (limit observed : Nat)
  | reclamationPending
  | reclamationLimit (resource : ReclamationResource) (limit observed : Nat)
  | maintenanceLimit (resource : MaintenanceResource) (limit observed : Nat)
  | mutableLimit (resource : MutableResource) (limit observed : Nat)
  | invalidConfiguration (reason : String)
  | invalidBatch (reason : String)
  | writeBatchLimit (resource : WriteBatchResource) (limit observed : Nat)
  | invalidManifest (reason : String)
  | manifestConflict (expected actual : Option Digest)
  | invalidSegment (reason : String)
  | invalidProjectedRead (reason : String)
  | invalidProjectedReadBudget (resource : ProjectedReadResource)
  | projectedReadLimit (resource : ProjectedReadResource) (limit observed : Nat)
  | duplicateProjectedSequence (manifest : Digest) (sequence : Nat)
  | tornTail (offset : Nat)
  | unsupportedVersion (object : String) (version : Nat)
  | recoveryRequired (boundary : String)
  | invalidTransaction (reason : String)
  | transactionConflict (snapshotSequence conflictingSequence : Nat)
  | transactionDatabaseMismatch
  | activeTransactions (operation : String)
  | poisonedTransactionState
  | poisonedWriter
  | injectedFailure (mode boundary : String)
  deriving DecidableEq, Repr

/-! ### Mutations and batches -/

inductive Mutation
  | put (key value : Bytes)
  | delete (key : Bytes)
  deriving DecidableEq, Repr

def Mutation.key : Mutation → Bytes
  | .put key _ => key
  | .delete key => key

/-- The value an operation leaves: nothing for a deletion. -/
def Mutation.value : Mutation → Option Bytes
  | .put _ value => some value
  | .delete _ => none

def maxOperations : Nat := 1000000
def maxKeyBytes : Nat := 1024 * 1024
def maxValueBytes : Nat := 8 * 1024 * 1024
def walMaxPayloadBytes : Nat := 16 * 1024 * 1024
def batchHeaderBytes : Nat := 16
def opHeaderBytes : Nat := 8

variable (key : Bytes)

def validateKey : Except Error Unit :=
  if key = [] ∨ key.length > maxKeyBytes then
    .error (.invalidBatch "key length must be in 1..=1048576 bytes")
  else .ok ()

def validateValue (value : Bytes) : Except Error Unit :=
  if value.length > maxValueBytes then
    .error (.invalidBatch "value length exceeds 8388608 bytes")
  else .ok ()

structure WriteBatchSize where
  operations : Nat := 0
  encodedBytes : Nat := batchHeaderBytes
  deriving DecidableEq, Repr

def operationLength (value : Option Bytes) : Except Error Nat :=
  match (checkedAdd opHeaderBytes key.length).bind
      (fun n => checkedAdd n (value.elim 0 List.length)) with
  | some n => .ok n
  | none => .error (.invalidBatch "encoded operation length overflow")

/-- The size after one mutation replaces what the staging map held for its key.
`previous` is `none` for a new key. -/
def WriteBatchSize.withReplacement (size : WriteBatchSize) (key : Bytes)
    (previous : Option (Option Bytes)) (value : Option Bytes) :
    Except Error WriteBatchSize := do
  validateKey key
  match value with
  | some value => validateValue value
  | none => pure ()
  let operations ← match previous with
    | none =>
      match checkedAdd size.operations 1 with
      | some n => .ok n
      | none => .error (.invalidBatch "operation count overflow")
    | some _ =>
      if size.operations = 0 then
        .error (.invalidBatch "replacement has no charged operation")
      else .ok size.operations
  if operations > maxOperations then
    .error (.writeBatchLimit .operations maxOperations operations)
  let old ← match previous with
    | none => .ok 0
    | some previous => operationLength key previous
  let new ← operationLength key value
  let encodedBytes ←
    if size.encodedBytes < old ∨ size.encodedBytes - old < batchHeaderBytes then
      .error (.invalidBatch "encoded batch accounting overflow")
    else match checkedAdd (size.encodedBytes - old) new with
      | some n => .ok n
      | none => .error (.invalidBatch "encoded batch accounting overflow")
  if encodedBytes > walMaxPayloadBytes then
    .error (.writeBatchLimit .encodedBytes walMaxPayloadBytes encodedBytes)
  return { operations, encodedBytes }

/-- Checks every operation of a batch and returns the encoded length. -/
def validateOperations (operations : List Mutation) : Except Error Nat := do
  if operations = [] then
    .error (.invalidBatch "operation count must be greater than zero")
  if operations.length > maxOperations then
    .error (.writeBatchLimit .operations maxOperations operations.length)
  let size ← operations.foldlM
    (fun size operation => size.withReplacement operation.key none operation.value)
    ({} : WriteBatchSize)
  return size.encodedBytes

/-- A batch that passed validation. -/
structure WriteBatch where
  operations : List Mutation
  encodedLen : Nat
  /-- The batch was accepted with this encoded length. -/
  valid : validateOperations operations = .ok encodedLen

def WriteBatch.new (operations : List Mutation) : Except Error WriteBatch :=
  match h : validateOperations operations with
  | .ok encodedLen => .ok ⟨operations, encodedLen, h⟩
  | .error e => .error e

def WriteBatch.len (batch : WriteBatch) : Nat := batch.operations.length

theorem WriteBatch.operations_ne_nil (batch : WriteBatch) : batch.operations ≠ [] := by
  intro h
  have hv := batch.valid
  rw [h] at hv
  simp [validateOperations, bind, Except.bind] at hv

theorem WriteBatch.len_pos (batch : WriteBatch) : 0 < batch.len :=
  length_pos_of_ne_nil batch.operations_ne_nil

/-- One version of a key: a sequence and the value written, nothing for a
tombstone. -/
structure VersionedValue where
  sequence : Nat
  value : Option Bytes
  deriving DecidableEq, Repr

abbrev Entry := Bytes × VersionedValue

/-- The versions of one key, in the order of the list. -/
def chainOf (entries : List Entry) : List VersionedValue :=
  entries.filterMap fun entry => if entry.1 = key then some entry.2 else none

/-- The operations of a batch as versions: operation `i` has sequence
`firstSequence + i`. -/
def stampOperations (firstSequence : Nat) : List Mutation → List Entry
  | [] => []
  | operation :: rest =>
    (operation.key, ⟨firstSequence, operation.value⟩) :: stampOperations (firstSequence + 1) rest

@[simp] theorem chainOf_nil : chainOf key [] = [] := rfl

@[simp] theorem chainOf_append (a b : List Entry) :
    chainOf key (a ++ b) = chainOf key a ++ chainOf key b :=
  filterMap_append

@[simp] theorem mem_chainOf {key : Bytes} {entries : List Entry} {v : VersionedValue} :
    v ∈ chainOf key entries ↔ (key, v) ∈ entries := by
  simp only [chainOf, mem_filterMap, Prod.exists]
  constructor
  · rintro ⟨k, w, hmem, h⟩
    split at h
    · rename_i heq
      cases heq
      cases h
      exact hmem
    · simp at h
  · intro h
    exact ⟨key, v, h, by simp⟩

theorem chainOf_flatMap {α : Type} (key : Bytes) (l : List α) (f : α → List Entry) :
    chainOf key (l.flatMap f) = l.flatMap (fun a => chainOf key (f a)) :=
  filterMap_flatMap ..

theorem chainOf_cons (entry : Entry) (rest : List Entry) : chainOf key (entry :: rest) =
      if entry.1 = key then entry.2 :: chainOf key rest else chainOf key rest := by
  simp only [chainOf, filterMap_cons]
  split <;> split <;> simp_all

theorem mem_stampOperations {first : Nat} {operations : List Mutation} {entry : Entry}
    (h : entry ∈ stampOperations first operations) :
    first ≤ entry.2.sequence ∧ entry.2.sequence < first + operations.length := by
  induction operations generalizing first with
  | nil => simp [stampOperations] at h
  | cons operation rest ih =>
    rcases mem_cons.mp h with rfl | h
    · simp
    · have := ih h
      simp only [length_cons]
      omega

@[simp] theorem length_stampOperations (first : Nat) (operations : List Mutation) :
    (stampOperations first operations).length = operations.length := by
  induction operations generalizing first with
  | nil => rfl
  | cons operation rest ih => rw [stampOperations, length_cons, ih, length_cons]

theorem stampOperations_pairwise (first : Nat) (operations : List Mutation) :
    (stampOperations first operations).Pairwise (fun a b => a.2.sequence < b.2.sequence) := by
  induction operations generalizing first with
  | nil => exact List.Pairwise.nil
  | cons operation rest ih =>
    refine pairwise_cons.mpr ⟨?_, ih (first + 1)⟩
    intro entry h
    exact (mem_stampOperations h).1

def inRange (start : Bytes) (stop : Option Bytes) (key : Bytes) : Bool :=
  start ≤ key && stop.all (fun stop => key < stop)

/-! ### Mutable charges and limits -/

/-- `size_of::<VersionedValue>()` on a 64-bit target: three words. -/
def versionedValueBytes : Nat := 24

def versionCharge (keyLen valueLen : Nat) : Except Error Nat :=
  match (checkedAdd keyLen valueLen).bind (fun n => checkedAdd n versionedValueBytes) with
  | some n => .ok n
  | none => .error (.invalidBatch "mutable version byte accounting overflow")

structure MutableCharge where
  bytes : Nat := 0
  versions : Nat := 0
  deriving DecidableEq, Repr

def MutableCharge.batch (batch : WriteBatch) : Except Error MutableCharge := do
  let bytes ← batch.operations.foldlM (fun bytes operation => do
    let charge ← versionCharge operation.key.length (operation.value.elim 0 List.length)
    match checkedAdd bytes charge with
    | some n => .ok n
    | none => .error (.invalidBatch "mutable byte accounting overflow")) 0
  return { bytes, versions := batch.len }

def MutableCharge.checkedAdd (charge other : MutableCharge) : Except Error MutableCharge :=
  match Lsm.checkedAdd charge.bytes other.bytes with
  | none => .error (.invalidBatch "mutable byte accounting overflow")
  | some bytes =>
    match Lsm.checkedAdd charge.versions other.versions with
    | none => .error (.invalidBatch "mutable version accounting overflow")
    | some versions => .ok { bytes, versions }

theorem MutableCharge.batch_versions {batch : WriteBatch} {charge : MutableCharge}
    (h : MutableCharge.batch batch = .ok charge) : charge.versions = batch.len := by
  simp only [MutableCharge.batch, bind, Except.bind, pure, Except.pure] at h
  split at h
  · simp at h
  · cases h
    rfl

theorem MutableCharge.checkedAdd_versions {charge other next : MutableCharge}
    (h : charge.checkedAdd other = .ok next) :
    next.versions = charge.versions + other.versions := by
  unfold MutableCharge.checkedAdd at h
  split at h
  · simp at h
  · split at h
    · simp at h
    · rename_i hversions
      cases h
      exact (checkedAdd_eq_some hversions).1

structure MutableLimits where
  accountedBytes : Nat := 128 * 1024 * 1024
  versions : Nat := 1048576
  deriving DecidableEq, Repr

def MutableLimits.check (limits : MutableLimits) (charge : MutableCharge) : Except Error Unit :=
  if charge.versions > limits.versions then
    .error (.mutableLimit .versions limits.versions charge.versions)
  else if charge.bytes > limits.accountedBytes then
    .error (.mutableLimit .accountedBytes limits.accountedBytes charge.bytes)
  else .ok ()

def MutableLimits.needsFlush (limits : MutableLimits) (current incoming : MutableCharge) : Bool :=
  current.bytes > limits.accountedBytes - incoming.bytes
    || current.versions > limits.versions - incoming.versions

/-! ### Policies, limits and options -/

structure MaintenancePolicy where
  walPayloadMaxBytes : Nat := 64 * 1024 * 1024
  memtableMaxVersions : Nat := 524288
  deriving DecidableEq, Repr

def MaintenancePolicy.validate (policy : MaintenancePolicy) : Except Error Unit :=
  if policy.walPayloadMaxBytes = 0 ∨ policy.memtableMaxVersions = 0 then
    .error (.invalidConfiguration
      "WAL payload and memtable version limits must be greater than zero")
  else .ok ()

def MutableLimits.validate (limits : MutableLimits) : Except Error Unit :=
  if limits.accountedBytes = 0 ∨ limits.versions = 0 then
    .error (.invalidConfiguration
      "hard mutable accounted-byte and version limits must be greater than zero")
  else .ok ()

structure CompactionPolicy where
  l0CompactionTrigger : Nat := 8
  maxInputSegments : Nat := 16
  targetSegmentBytes : Nat := 8 * 1024 * 1024
  maxLevel : Nat := 6
  deriving DecidableEq, Repr

def CompactionPolicy.validate (policy : CompactionPolicy) : Except Error Unit :=
  if policy.l0CompactionTrigger < 2 ∨ policy.maxInputSegments < 2
      ∨ policy.targetSegmentBytes = 0 ∨ policy.maxLevel = 0 then
    .error (.invalidConfiguration
      "compaction requires an L0 trigger and input bound of at least two, a non-zero output target, and at least one level")
  else .ok ()

structure CompactionLimits where
  inputBytes : Nat := 1024 * 1024 * 1024
  inputLogicalBytes : Nat := 256 * 1024 * 1024
  inputVersions : Nat := 4194304
  outputSegments : Nat := 256
  elapsedMs : Nat := 30000
  l0Segments : Nat := 64
  deriving DecidableEq, Repr

variable (limits : CompactionLimits)

def CompactionLimits.validate : Except Error Unit :=
  if limits.inputBytes = 0 ∨ limits.inputLogicalBytes = 0 ∨ limits.inputVersions = 0
      ∨ limits.outputSegments = 0 ∨ limits.elapsedMs = 0 ∨ limits.l0Segments < 2 then
    .error (.invalidConfiguration
      "compaction limits must be positive and L0 capacity at least two")
  else .ok ()

def CompactionLimits.limit : MaintenanceResource → Nat
  | .inputBytes => limits.inputBytes
  | .inputLogicalBytes => limits.inputLogicalBytes
  | .inputVersions => limits.inputVersions
  | .outputSegments => limits.outputSegments
  | .elapsedMs => limits.elapsedMs
  | .l0Segments => limits.l0Segments

def CompactionLimits.check (resource : MaintenanceResource) (observed : Nat) : Except Error Unit :=
  if observed > limits.limit resource then
    .error (.maintenanceLimit resource (limits.limit resource) observed)
  else .ok ()

structure ReclamationLimits where
  inventoryEntries : Nat := 262144
  metadataBytes : Nat := 64 * 1024 * 1024
  deleteFiles : Nat := 1024
  deleteBytes : Nat := 1024 * 1024 * 1024
  elapsedMs : Nat := 30000
  deriving DecidableEq, Repr

def ReclamationLimits.validate (limits : ReclamationLimits) : Except Error Unit :=
  if limits.inventoryEntries = 0 ∨ limits.metadataBytes = 0 ∨ limits.deleteFiles = 0
      ∨ limits.deleteBytes = 0 ∨ limits.elapsedMs = 0 then
    .error (.invalidConfiguration "reclamation limits must be positive")
  else .ok ()

structure RecoveryLimits where
  metadataBytes : Nat := 64 * 1024 * 1024
  files : Nat := 262144
  readBytes : Nat := 2 ^ 40
  walBytes : Nat := 256 * 1024 * 1024
  walFrames : Nat := 1048576
  elapsedMs : Nat := 120000
  deriving DecidableEq, Repr

def RecoveryLimits.validate (limits : RecoveryLimits) : Except Error Unit :=
  if limits.metadataBytes = 0 ∨ limits.files = 0 ∨ limits.readBytes = 0
      ∨ limits.walBytes = 0 ∨ limits.walFrames = 0 ∨ limits.elapsedMs = 0 then
    .error (.invalidConfiguration "recovery limits must be positive")
  else .ok ()

/-- Soft limits of one row group of a segment. -/
structure SegmentRowGroupBudget where
  maxRows : Nat := 2 * 1024
  targetBytes : Nat := 64 * 1024
  deriving DecidableEq, Repr

def maxSegmentBytes : Nat := 1024 * 1024 * 1024

def SegmentRowGroupBudget.validate (budget : SegmentRowGroupBudget) : Except Error Unit :=
  if budget.maxRows = 0 ∨ budget.maxRows > 2 ^ 32 - 1 ∨ budget.targetBytes = 0
      ∨ budget.targetBytes > maxSegmentBytes then
    .error (.invalidConfiguration
      "segment row-group target bytes must fit within the segment limit and max rows must fit u32; both must be non-zero")
  else .ok ()

structure TransactionLimits where
  active : Nat := 64
  bufferedBytes : Nat := 64 * 1024 * 1024
  deriving DecidableEq, Repr

def TransactionLimits.validate (limits : TransactionLimits) : Except Error Unit :=
  if limits.active = 0 ∨ limits.bufferedBytes = 0 then
    .error (.invalidConfiguration "native transaction limits must be positive")
  else .ok ()

/-- The options of an open database that its operations read. -/
structure DatabaseOptions where
  checkpointEntries : Nat := 1024
  transactionLimits : TransactionLimits := {}
  segmentRowGroupBudget : SegmentRowGroupBudget := {}
  maintenance : MaintenancePolicy := {}
  mutableLimits : MutableLimits := {}
  compaction : CompactionPolicy := {}
  compactionLimits : CompactionLimits := {}
  reclamation : ReclamationLimits := {}
  recovery : RecoveryLimits := {}
  deriving DecidableEq, Repr

def DatabaseOptions.validate (options : DatabaseOptions) : Except Error Unit := do
  if options.checkpointEntries = 0 ∨ options.checkpointEntries > 65536 then
    .error (.invalidConfiguration "checkpoint entries must be in 1..=65536")
  options.segmentRowGroupBudget.validate
  options.transactionLimits.validate
  options.maintenance.validate
  options.mutableLimits.validate
  options.compaction.validate
  options.compactionLimits.validate
  options.reclamation.validate
  options.recovery.validate
  if options.compactionLimits.l0Segments < options.compaction.l0CompactionTrigger then
    .error (.invalidConfiguration "L0 hard capacity is below its compaction trigger")

end Rrflow.Lsm

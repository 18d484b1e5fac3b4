import Rrflow.Lsm.Maintenance

/-!
Reclamation of files.

A cycle computes what the current manifest, the live read views and the
checkpoints name, checks that all of it is there, and only then removes a
bounded prefix of the other files. The deadline, the number of examined entries
and the bytes of read metadata are charged to one budget.
-/

namespace Rrflow.Lsm

open Eff

structure ReclamationBudget where
  entries : Nat := 0
  metadataBytes : Nat := 0
  deletedFiles : Nat := 0
  deletedBytes : Nat := 0
  deriving DecidableEq, Repr

def reclamationLimits : Run ReclamationLimits := do
  return (← Eff.get).db.options.reclamation

def checkReclamation (resource : ReclamationResource) (limit observed : Nat) : Run Unit :=
  if observed > limit then fail (.reclamationLimit resource limit observed) else pure ()

def reclamationTick : Run Unit := do
  let elapsed ← nextReading
  checkReclamation .elapsedMs (← reclamationLimits).elapsedMs elapsed

def chargeEntries (budget : ReclamationBudget) (entries : Nat) : Run ReclamationBudget := do
  reclamationTick
  match checkedAdd budget.entries entries with
  | none => fail (.invalidManifest "reclamation inventory overflow")
  | some next =>
    checkReclamation .inventoryEntries (← reclamationLimits).inventoryEntries next
    return { budget with entries := next }

/-- Charge of reading one metadata file of the given length. -/
def readMetadata (budget : ReclamationBudget) (length : Nat) : Run ReclamationBudget := do
  reclamationTick
  let observed := saturatingAdd budget.metadataBytes length
  checkReclamation .metadataBytes (← reclamationLimits).metadataBytes observed
  reclamationTick
  return { budget with metadataBytes := observed }

variable (codec : Codec) (budget : ReclamationBudget)

def loadManifestBounded (digest : Digest) : Run (Manifest × ReclamationBudget) := do
  let world ← Eff.get
  match world.disk.manifests.find? digest with
  | none => fail (.io "validating manifest file")
  | some stored =>
    let budget ← readMetadata budget (codec.manifestBytes stored)
    let manifest ← ofExcept (world.disk.loadManifest codec digest)
    return (manifest, budget)

/-- What a cycle must keep. -/
structure Retained where
  manifests : List Digest := []
  segments : SortedMap Digest Nat := ∅
  wals : List Nat := []

/-- Adds one segment with its length; two owners must agree on the length. -/
def retainSegment (reason : String) (retained : Retained) (segment : SegmentDescriptor) :
    Run Retained := do
  let next := { retained with segments := retained.segments.insert segment.id segment.bytes }
  match retained.segments.find? segment.id with
  | some previous =>
    if previous ≠ segment.bytes then fail (.invalidManifest reason)
    return next
  | none => return next

variable (retained : Retained)

def retainManifest (manifest : Manifest) : Run (Retained × ReclamationBudget) := do
  let budget ← chargeEntries budget 1
  if manifest.digest codec ∈ retained.manifests then return (retained, budget)
  let budget ← chargeEntries budget manifest.segments.length
  ofExcept manifest.validate
  let retained := { retained with
    manifests := manifest.digest codec :: retained.manifests
    wals := retained.wals.insert manifest.walStartSequence }
  let retained ← Eff.foldlM (fun retained segment => do
    reclamationTick
    retainSegment "protected manifests disagree about segment length" retained segment)
    retained manifest.segments
  return (retained, budget)

def retainViews : Run (Retained × ReclamationBudget) := do
  let world ← Eff.get
  Eff.foldlM (fun (state : Retained × ReclamationBudget) segment => do
    let budget ← chargeEntries state.2 1
    let retained ← retainSegment "protected segment pins disagree about length" state.1 segment
    return (retained, budget)) (retained, budget) world.db.activeReadViews.flatten

/-- The checkpoints in name order, each with its manifest checked. -/
def checkpointsBounded : Run (List Checkpoint × ReclamationBudget) := do
  let world ← Eff.get
  let checkpoints := world.disk.checkpoints.values
  let budget ← Eff.foldlM (fun (state : Nat × ReclamationBudget) (_ : Checkpoint) => do
    let budget ← chargeEntries state.2 1
    if state.1 ≥ world.db.options.checkpointEntries then
      fail (.checkpointLimit world.db.options.checkpointEntries (state.1 + 1))
    return (state.1 + 1, budget)) (0, budget) checkpoints
  let budget ← Eff.foldlM (fun budget checkpoint => do
    let budget ← readMetadata budget (codec.checkpointBytes checkpoint)
    let (manifest, budget) ← loadManifestBounded codec budget checkpoint.manifest
    if manifest.generation ≠ checkpoint.generation then
      fail (.invalidManifest "checkpoint generation differs from its manifest")
    return budget) budget.2 checkpoints
  return (checkpoints, budget)

def retainCheckpoints : Run (Retained × ReclamationBudget) := do
  let (checkpoints, budget) ← checkpointsBounded codec budget
  Eff.foldlM (fun (state : Retained × ReclamationBudget) checkpoint => do
    if checkpoint.manifest ∈ state.1.manifests then return state
    let (manifest, budget) ← loadManifestBounded codec state.2 checkpoint.manifest
    retainManifest codec budget state.1 manifest) (retained, budget) checkpoints

/-- A missing object is damage: everything retained is checked before the first
removal. -/
def checkRetained : Run ReclamationBudget := do
  let world ← Eff.get
  let budget ← Eff.foldlM (fun budget digest => do
    let (_, budget) ← loadManifestBounded codec budget digest
    return budget) budget retained.manifests
  let budget ← Eff.foldlM (fun budget (segment : Digest × Nat) => do
    let budget ← chargeEntries budget 1
    match world.disk.segments.find? segment.1 with
    | none => fail (.io "protected reclamation segment")
    | some content =>
      if codec.bytes content.rowGroups ≠ segment.2 then
        fail (.invalidManifest "protected reclamation segment is missing, non-regular or has a different length")
      return budget) budget retained.segments.toList
  Eff.foldlM (fun budget start => do
    let budget ← chargeEntries budget 1
    if (world.disk.wals.find? start).isNone then
      fail (.invalidManifest "protected reclamation WAL is not a regular file")
    return budget) budget retained.wals

/-- The names of a directory that are not retained, in order; every entry is
charged. -/
def unreachableFiles {κ : Type} (names : List κ) (isRetained : κ → Bool)
    (budget : ReclamationBudget) : Run (List κ × ReclamationBudget) := do
  let budget ← Eff.foldlM (fun budget (_ : κ) => chargeEntries budget 1) budget names
  return (names.filter (fun name => !isRetained name), budget)

/-- Whether one more file may be removed in this cycle. -/
def admitDelete (bytes : Nat) : Run (Option ReclamationBudget) := do
  let limits ← reclamationLimits
  checkReclamation .deleteBytes limits.deleteBytes bytes
  let elapsed ← nextReading
  if elapsed > limits.elapsedMs ∨ budget.deletedFiles = limits.deleteFiles
      ∨ bytes > limits.deleteBytes - budget.deletedBytes then
    return none
  return some { budget with
    deletedFiles := budget.deletedFiles + 1
    deletedBytes := budget.deletedBytes + bytes }

/-- Removes candidates until the budget of the cycle is spent; returns whether
some are left. -/
def removeCandidates {κ : Type} (remove : κ → Disk → Disk) (length : κ → Disk → Nat) :
    ReclamationBudget → List κ → Run (Bool × ReclamationBudget)
  | budget, [] => pure (false, budget)
  | budget, name :: rest => do
      let world ← Eff.get
      match ← admitDelete budget (length name world.disk) with
      | none => return (true, budget)
      | some budget =>
        modifyDisk (remove name)
        removeCandidates remove length budget rest

def removeManifest (digest : Digest) (disk : Disk) : Disk :=
  { disk with manifests := disk.manifests.erase digest }

def removeSegment (digest : Digest) (disk : Disk) : Disk :=
  { disk with segments := disk.segments.erase digest }

def removeWal (start : Nat) (disk : Disk) : Disk :=
  { disk with wals := disk.wals.erase start }

/-- What one cycle must keep, with the budget spent on finding it. -/
def reclamationRoots : Run (Retained × ReclamationBudget) := do
  let world ← Eff.get
  let (retained, budget) ← retainManifest codec {} {} world.db.manifest
  let (retained, budget) ← retainViews budget retained
  retainCheckpoints codec budget retained

/-- One cycle; returns whether unreachable files are left. -/
def garbageCollect : Run Bool := do
  ensureWriterReady
  let (retained, budget) ← reclamationRoots codec
  let budget ← checkRetained codec budget retained
  let world ← Eff.get
  let (manifests, budget) ← unreachableFiles world.disk.manifests.keys
    (fun digest => decide (digest ∈ retained.manifests)) budget
  let (segments, budget) ← unreachableFiles world.disk.segments.keys
    (fun digest => retained.segments.contains digest) budget
  let (wals, budget) ← unreachableFiles world.disk.wals.keys
    (fun start => decide (start ∈ retained.wals)) budget
  reclamationTick
  let (moreManifests, budget) ← removeCandidates removeManifest
    (fun digest disk => (disk.manifests.find? digest).elim 0 codec.manifestBytes) budget manifests
  let (moreSegments, budget) ← removeCandidates removeSegment
    (fun digest disk => (disk.segments.find? digest).elim 0
      (fun content => codec.bytes content.rowGroups)) budget segments
  let (moreWals, _) ← removeCandidates removeWal
    (fun start disk => (disk.wals.find? start).elim 0 walBytes) budget wals
  return moreManifests || moreSegments || moreWals

/-- Finishes pending cleanup before more files are created. -/
def reclaimIfPending : Run Unit := do
  let world ← Eff.get
  if world.db.reclamationPending then
    let hasMore ← garbageCollect codec
    modifyDb fun db => { db with reclamationPending := hasMore }
    if hasMore then fail .reclamationPending

/-- One idle quantum: a reclamation cycle when one is pending, else one
compaction when there is debt. The mutable table is never flushed. -/
def maintenanceStepInner (protectedSnapshots : List Nat) (retainAllVersions : Bool) : Run Bool := do
  ensureWriterReady
  let world ← Eff.get
  if world.db.reclamationPending then
    let hasMore ← garbageCollect codec
    modifyDb fun db => { db with reclamationPending := hasMore }
    return true
  if world.db.compactionDebtSegments = 0 then return false
  let outcome ← compactSegmentsInner codec protectedSnapshots world.db.manifest.createdAt none
    false retainAllVersions
  return outcome.isSome

def maintenanceStep : Run Bool := maintenanceStepInner codec [] true

def maintenanceStepWithProtectedSnapshots (protectedSnapshots : List Nat) : Run Bool :=
  maintenanceStepInner codec protectedSnapshots false

end Rrflow.Lsm

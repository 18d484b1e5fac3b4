import Rrflow.Lsm.State

/-!
Flush, compaction and reclamation.

Each of them prepares immutable files first, then publishes one manifest, and
only then changes the state in memory. A flush moves the mutable table into new
segments and starts a new log. A compaction merges some segments into others of
the next level; it may drop versions that no protected snapshot can see.
Reclamation removes files that the current manifest, the checkpoints and the
live read views do not name.
-/

namespace Rrflow.Lsm

open Eff

/-! ### Flush -/

/-- Charge of one chain against the partition target. -/
def flushGroupBytes (key : Bytes) (versions : List VersionedValue) : Except Error Nat :=
  versions.foldlM (fun bytes version =>
    match ((checkedAdd bytes key.length).bind
        (checkedAdd · (version.value.elim 0 List.length))).bind (checkedAdd · 24) with
    | some bytes => .ok bytes
    | none => .error (.invalidSegment "flush key-group estimate overflow")) 0

/-- First keys of the partitions so far and the charge of the last one. -/
structure FlushPlan where
  boundaries : List Bytes := []
  partitionBytes : Nat := 0
  deriving DecidableEq, Repr

/-- One round of the partition loop. -/
def FlushPlan.step (l0Segments : Nat) (plan : FlushPlan)
    (chain : Bytes × List VersionedValue) : Run FlushPlan := do
  checkElapsed
  let groupBytes ← ofExcept (flushGroupBytes chain.1 chain.2)
  let world ← Eff.get
  let options := world.db.options
  if plan.boundaries = []
      ∨ saturatingAdd plan.partitionBytes groupBytes > options.compaction.targetSegmentBytes then
    let outputs := saturatingAdd plan.boundaries.length 1
    ofExcept (options.compactionLimits.check .outputSegments outputs)
    ofExcept (options.compactionLimits.check .l0Segments (saturatingAdd l0Segments outputs))
    return { boundaries := plan.boundaries ++ [chain.1], partitionBytes := groupBytes }
  else
    return { plan with partitionBytes := saturatingAdd plan.partitionBytes groupBytes }

/-- The chains from a boundary up to the next one. -/
def Memtable.rangeVersions (table : Memtable) (first : Bytes) (stop : Option Bytes) :
    List (Bytes × List VersionedValue) :=
  table.rangeChains first stop

/-- The partitions named by their boundaries. -/
def partitionBounds : List Bytes → List (Bytes × Option Bytes)
  | [] => []
  | first :: rest => (first, rest.head?) :: partitionBounds rest

variable (codec : Codec)

/-- The manifest of a successor state, shared by flush, compaction and snapshot
installation: it extends the current one. The text is that of an overflow of the
generation. -/
def successorManifest (overflow : String) (createdAt durableSequence walStartSequence : Nat)
    (segments : List SegmentDescriptor) : Run Manifest := do
  let world ← Eff.get
  let generation ← increment world.db.manifest.generation (.invalidManifest overflow)
  ofExcept (newManifest generation (some (world.db.manifest.digest codec)) createdAt
    durableSequence walStartSequence segments world.db.manifest.applicationFormat)

variable (createdAt : Nat)

/-- The second half of a flush: the written segments replace the table. -/
def publishFlushed (failure : Option (FlushBoundary × FailureMode)) (sequence : Nat)
    (flushed : List Segment) : Run (Option Manifest) := do
  let world ← Eff.get
  let db := world.db
  let nextSequence ← increment sequence (.invalidBatch "sequence overflow at flush")
  successorWal nextSequence
  injectFailure failure .successorWalSynced
  let segments := db.segments ++ flushed
  let descriptors := segments.map (Segment.descriptor codec.toSegmentCodec)
  let next ← successorManifest codec "manifest generation overflow" createdAt sequence
    nextSequence descriptors
  checkElapsed
  publish codec next (some (db.manifest.digest codec))
  modifyDb fun db =>
    { db with
      walStart := nextSequence
      walNextSequence := nextSequence
      memtable := .atSequence sequence
      walPayloadBytes := 0
      segments := segments
      pointIndex := .new descriptors
      manifest := next
      reclamationPending := true }
  injectFailure failure .manifestPublished
  return some next

def flushMemtableInner (failure : Option (FlushBoundary × FailureMode)) :
    Run (Option Manifest) := do
  ensureWriterReady
  let world ← Eff.get
  let db := world.db
  if db.memtable.versionCount = 0 then return none
  let plan ← Eff.foldlM (FlushPlan.step db.l0SegmentCount) {} db.memtable.allVersions
  -- the log is synced here: every acknowledged sequence is below the next one
  let sequence := db.walNextSequence - 1
  injectFailure failure .walSynced
  modifyDb fun db => { db with reclamationPending := true }
  let flushed ← Eff.foldlM (fun flushed (bounds : Bytes × Option Bytes) => do
    checkElapsed
    let content ← writeSegment codec (db.memtable.rangeVersions bounds.1 bounds.2)
    return flushed ++ [({ content, level := 0 } : Segment)]) [] (partitionBounds plan.boundaries)
  injectFailure failure .segmentSynced
  publishFlushed codec createdAt failure sequence flushed

def flushMemtable : Run (Option Manifest) :=
  flushMemtableInner codec createdAt none

/-! ### Selection of a compaction -/

structure CompactionCandidate where
  indices : List Nat
  sourceLevel : Nat
  targetLevel : Nat
  deriving DecidableEq, Repr

def rangesOverlap (leftFirst leftLast rightFirst rightLast : Bytes) : Bool :=
  leftFirst ≤ rightLast && rightFirst ≤ leftLast

/-- Order in which source segments are tried: level 0 by age, others by key. -/
def sourceLe (sourceLevel : Nat) (segments : List Segment) (left right : Nat) : Bool :=
  match segments[left]?, segments[right]? with
  | some a, some b =>
    let a := a.descriptor codec.toSegmentCodec
    let b := b.descriptor codec.toSegmentCodec
    if sourceLevel = 0 then
      a.maximumSequence < b.maximumSequence || a.maximumSequence = b.maximumSequence &&
        (a.firstKey < b.firstKey || a.firstKey = b.firstKey && a.id ≤ b.id)
    else a.firstKey < b.firstKey || a.firstKey = b.firstKey && a.id ≤ b.id
  | _, _ => true

def segmentsAt (segments : List Segment) (indices : List Nat) : List Segment :=
  indices.filterMap (segments[·]?)

/-- A selection of sources with every segment of the target level that overlaps
their hull; nothing when that exceeds the input bound. -/
def compactionOverlapCandidate (sources : List Nat) (sourceLevel : Nat) :
    Run (Option CompactionCandidate) := do
  let world ← Eff.get
  let db := world.db
  let contents := (segmentsAt db.segments sources).map Segment.content
  let firstKey := ((contents.map SegmentContent.firstKey).min?).getD []
  let lastKey := ((contents.map SegmentContent.lastKey).max?).getD []
  let targetLevel := sourceLevel + 1
  let overlap ← Eff.foldlM (fun (indices : Option (List Nat)) (position : Segment × Nat) =>
    match indices with
    | none => pure none
    | some indices => do
        checkElapsed
        if position.1.level = targetLevel ∧
            rangesOverlap firstKey lastKey position.1.content.firstKey
              position.1.content.lastKey then
          if indices.length + 1 > db.options.compaction.maxInputSegments then return none
          else return some (indices ++ [position.2])
        else return some indices) (some sources) db.segments.zipIdx
  return overlap.map fun indices =>
    { indices := indices.insertionSort (· ≤ ·), sourceLevel, targetLevel }

/-- Running totals of the admission of an input. -/
structure CompactionInput where
  physicalBytes : Nat := 0
  logicalBytes : Nat := 0
  versions : Nat := 0
  deriving DecidableEq, Repr

def checkedTotal (total add : Nat) (reason : String) : Run Nat :=
  match checkedAdd total add with
  | some total => pure total
  | none => fail (.invalidSegment reason)

def admitCompactionInput (candidate : CompactionCandidate) : Run Nat := do
  let world ← Eff.get
  let db := world.db
  let limits := db.options.compactionLimits
  let input ← Eff.foldlM (fun (input : CompactionInput) (segment : Segment) => do
    let physicalBytes ← checkedTotal input.physicalBytes
      (codec.bytes segment.content.rowGroups) "compaction physical byte overflow"
    let logicalBytes ← checkedTotal input.logicalBytes
      (segment.content.rowGroups.map groupLogicalBytes).sum "compaction logical byte overflow"
    let versions ← checkedTotal input.versions segment.content.entries
      "compaction version count overflow"
    ofExcept (limits.check .inputBytes physicalBytes)
    ofExcept (limits.check .inputLogicalBytes logicalBytes)
    ofExcept (limits.check .inputVersions versions)
    checkElapsed
    return ({ physicalBytes, logicalBytes, versions } : CompactionInput))
    {} (segmentsAt db.segments candidate.indices)
  return input.physicalBytes

structure CandidateSearch where
  denied : Option Error := none
  overlapBlocked : Bool := false
  found : Option CompactionCandidate := none

/-- Whether an error only says that one candidate is too large. -/
def isInputLimit : Error → Bool
  | .maintenanceLimit .inputBytes _ _ => true
  | .maintenanceLimit .inputLogicalBytes _ _ => true
  | .maintenanceLimit .inputVersions _ _ => true
  | _ => false

/-- The admission of a candidate: admitted, or denied for its size. -/
def tryAdmit (candidate : CompactionCandidate) : Run (Option Error) :=
  Eff.recover (admitCompactionInput codec candidate >>= fun _ => pure none)
    (fun error => if isInputLimit error then some (some error) else none)

def trySlice (force blocked : Bool) (sourceLevel : Nat) (sources : List Nat)
    (search : CandidateSearch) (slice : Nat × Nat) : Run CandidateSearch := do
  if search.found.isSome then return search
  checkElapsed
  match ← compactionOverlapCandidate ((sources.drop slice.1).take slice.2) sourceLevel with
  | none => return { search with overlapBlocked := true }
  | some candidate =>
    if candidate.indices.length < 2 ∧ ¬(sources.length = 1 ∧ (force ∨ blocked)) then
      return search
    match ← tryAdmit codec candidate with
    | none => return { search with found := some candidate }
    | some error => return { search with denied := search.denied.or (some error) }

/-- The slices of `count` sources: every start, and from each the longest first. -/
def slices (count maxInputSegments : Nat) : List (Nat × Nat) :=
  (List.range count).flatMap fun start =>
    ((List.range (min (count - start) maxInputSegments)).reverse).map fun take => (start, take + 1)

def tryLevel (force : Bool) (search : CandidateSearch) (sourceLevel : Nat) :
    Run CandidateSearch := do
  if search.found.isSome then return search
  checkElapsed
  let world ← Eff.get
  let db := world.db
  let sources := (db.segments.zipIdx.filter (fun position => position.1.level = sourceLevel)).map
    Prod.snd
  let blocked := search.denied.isSome || search.overlapBlocked
  let threshold := if sourceLevel = 0 then db.options.compaction.l0CompactionTrigger else 2
  if sources = [] ∨ (¬force ∧ ¬blocked ∧ sources.length < threshold) then return search
  let sources := sources.insertionSort
    (fun left right => sourceLe codec sourceLevel db.segments left right)
  Eff.foldlM (trySlice codec force blocked sourceLevel sources) search
    (slices sources.length db.options.compaction.maxInputSegments)

def selectCompactionCandidate (force : Bool) : Run (Option CompactionCandidate) := do
  let world ← Eff.get
  let search ← Eff.foldlM (tryLevel codec force) {}
    (List.range world.db.options.compaction.maxLevel)
  match search.found, search.denied with
  | some candidate, _ => return some candidate
  | none, some error => fail error
  | none, none => return none

/-! ### Merge -/

def minKey (cursors : List (List Entry)) : Option Bytes :=
  (cursors.filterMap (fun cursor => cursor.head?.map Prod.fst)).min?

variable (versions : SortedMap Nat (Option Bytes))

/-- Adds one record to the versions of the current key. -/
def observeRecord (record : Entry) : Run (SortedMap Nat (Option Bytes)) := do
  checkElapsed
  match versions.find? record.2.sequence with
  | some existing =>
    if existing ≠ record.2.value then
      fail (.invalidSegment
        ("segments disagree for sequence " ++ toString record.2.sequence))
    return versions
  | none => return versions.insert record.2.sequence record.2.value

def chainOfMap : List VersionedValue :=
  versions.toList.map fun version => ⟨version.1, version.2⟩

/-- The versions a merge keeps of one key: all of them, or the newest one at or
before each protected sequence. -/
def retainedVersions (protectedSequences : List Nat) (retainAllVersions : Bool) :
    List VersionedValue :=
  if retainAllVersions then chainOfMap versions
  else
    let retainedSequences := protectedSequences.filterMap fun sequence =>
      (versions.keys.filter (· ≤ sequence)).getLast?
    (chainOfMap versions).filter (fun version => version.sequence ∈ retainedSequences)

/-- A key is dropped when only tombstones are left of it that hide nothing
outside the merge. -/
def retainCompactedKey (retained : List VersionedValue) (retainAllVersions : Bool)
    (shadowsUnselected : Bool) : Bool :=
  !retained.isEmpty &&
    (retainAllVersions || retained.any (fun version => version.value.isSome) || shadowsUnselected)

def versionGroupBytes (key : Bytes) (versions : List VersionedValue) : Nat :=
  versions.foldl (fun bytes version =>
    saturatingAdd (saturatingAdd (saturatingAdd bytes key.length)
      (version.value.elim 0 List.length)) versionedValueBytes) 0

/-- The checks of `Memtable::from_versions` on one partition. -/
def checkVersions (versions : SortedMap Bytes (List VersionedValue)) (maximumSequence : Nat) :
    Except Error Unit :=
  versions.toList.foldlM (fun _ chain => do
    if chain.1 = [] ∨ chain.2 = [] then
      .error (.invalidSegment "compacted memtable contains an empty key/version set")
    let _ ← chain.2.foldlM (fun previous version =>
      if version.sequence = 0 ∨ version.sequence ≤ previous
          ∨ version.sequence > maximumSequence then
        .error (.invalidSegment "compacted versions are not strictly ordered")
      else .ok version.sequence) 0
    return ()) ()

/-- What a merge has written and what it still buffers. -/
structure MergeState where
  buffered : SortedMap Bytes (List VersionedValue) := ∅
  bufferedBytes : Nat := 0
  segments : List Segment := []

def writeCompactionPartition (codec : Codec) (durable targetLevel : Nat) (state : MergeState) :
    Run MergeState := do
  checkElapsed
  let world ← Eff.get
  ofExcept (world.db.options.compactionLimits.check .outputSegments (state.segments.length + 1))
  ofExcept (checkVersions state.buffered durable)
  let content ← writeSegment codec state.buffered.toList
  return { segments := state.segments ++ [{ content, level := targetLevel }] }

structure MergePlan where
  durable : Nat
  targetLevel : Nat
  protectedSequences : List Nat
  retainAllVersions : Bool
  /-- Segments outside the merge. -/
  unselected : List Segment

def MergePlan.shadows (plan : MergePlan) (key : Bytes) : Bool :=
  plan.unselected.any fun segment =>
    segment.content.firstKey ≤ key && key ≤ segment.content.lastKey

/-- Closes the current partition when the next key does not fit its target. -/
def rollPartition (codec : Codec) (plan : MergePlan) (state : MergeState) (groupBytes : Nat) :
    Run MergeState := do
  let world ← Eff.get
  if !state.buffered.toList.isEmpty ∧ saturatingAdd state.bufferedBytes groupBytes
      > world.db.options.compaction.targetSegmentBytes then
    writeCompactionPartition codec plan.durable plan.targetLevel state
  else pure state

/-- Adds the retained versions of one key to the current partition. -/
def bufferKey (codec : Codec) (plan : MergePlan) (state : MergeState) (key : Bytes)
    (retained : List VersionedValue) : Run MergeState := do
  let groupBytes := versionGroupBytes key retained
  let state ← rollPartition codec plan state groupBytes
  return { state with
    bufferedBytes := saturatingAdd state.bufferedBytes groupBytes
    buffered := state.buffered.insert key retained }

/-- The merge loop: one key of the cursors per round; `fuel` bounds the keys. -/
def mergeLoop (codec : Codec) (plan : MergePlan) :
    Nat → List (List Entry) → MergeState → Run MergeState
  | 0, _, state => pure state
  | fuel + 1, cursors, state =>
    match minKey cursors with
    | none => pure state
    | some key => do
        checkElapsed
        let versions ← Eff.foldlM observeRecord ∅
          (cursors.flatMap (·.takeWhile (fun record => record.1 = key)))
        let rest := cursors.map (·.dropWhile (fun record => record.1 = key))
        let retained := retainedVersions versions plan.protectedSequences plan.retainAllVersions
        if retainCompactedKey retained plan.retainAllVersions (plan.shadows key) then
          let state ← bufferKey codec plan state key retained
          mergeLoop codec plan fuel rest state
        else mergeLoop codec plan fuel rest state

def mergeCompactionCandidate (codec : Codec) (plan : MergePlan) (selected : List Segment) :
    Run (List Segment) := do
  let cursors := selected.map (fun segment => segment.content.rows)
  let state ← mergeLoop codec plan (cursors.flatten.length + 1) cursors {}
  if state.buffered.toList.isEmpty then return state.segments
  let state ← writeCompactionPartition codec plan.durable plan.targetLevel state
  return state.segments

/-! ### Compaction -/

structure CompactionOutcome where
  manifest : Manifest
  protectedSequences : List Nat
  historyPruned : Bool

/-- The segments whose position is not selected. -/
def unselectedSegments (segments : List Segment) (indices : List Nat) : List Segment :=
  (segments.zipIdx.filter (fun position => position.2 ∉ indices)).map Prod.fst

/-- Sequences a pruning merge protects: the caller's, those of the registered
transactions and the durable head. -/
def protectedSequencesOf (db : Database) (protectedSnapshots : List Nat) : List Nat :=
  protectedSnapshots.filter (· ≤ db.manifest.durableSequence) ++ db.transactionSnapshots.pins
    ++ [db.manifest.durableSequence]

/-- The second half of a compaction: the new list of segments is published. -/
def publishCompacted (codec : Codec) (createdAt : Nat)
    (failure : Option (CompactionBoundary × FailureMode)) (segments : List Segment) :
    Run Manifest := do
  let world ← Eff.get
  let db := world.db
  let descriptors := segments.map (Segment.descriptor codec.toSegmentCodec)
  let next ← successorManifest codec "manifest generation overflow" createdAt
    db.manifest.durableSequence db.manifest.walStartSequence descriptors
  checkElapsed
  publish codec next (some (db.manifest.digest codec))
  modifyDb fun db =>
    { db with segments := segments, pointIndex := .new descriptors, manifest := next }
  injectCompactionFailure failure .manifestPublished
  return next

/-- Merges one candidate, without changing what is published. -/
def mergeSelected (codec : Codec) (protectedSequences : List Nat) (retainAllVersions : Bool)
    (candidate : CompactionCandidate) : Run (List Segment) := do
  let world ← Eff.get
  let db := world.db
  modifyDb fun db => { db with reclamationPending := true }
  let unselected := unselectedSegments db.segments candidate.indices
  let compacted ← mergeCompactionCandidate codec
    { durable := db.manifest.durableSequence, targetLevel := candidate.targetLevel
      protectedSequences, retainAllVersions, unselected }
    (segmentsAt db.segments candidate.indices)
  checkElapsed
  return unselected ++ compacted

def compactSegmentsInner (codec : Codec) (protectedSnapshots : List Nat) (createdAt : Nat)
    (failure : Option (CompactionBoundary × FailureMode)) (force retainAllVersions : Bool) :
    Run (Option CompactionOutcome) := do
  ensureWriterReady
  match ← selectCompactionCandidate codec force with
  | none => return none
  | some candidate =>
    let _ ← admitCompactionInput codec candidate
    let world ← Eff.get
    let protectedSequences := protectedSequencesOf world.db protectedSnapshots
    let segments ← mergeSelected codec protectedSequences retainAllVersions candidate
    injectCompactionFailure failure .segmentSynced
    let next ← publishCompacted codec createdAt failure segments
    return some { manifest := next, protectedSequences, historyPruned := !retainAllVersions }

def compactInner (codec : Codec) (protectedSnapshots : List Nat) (createdAt : Nat)
    (failure : Option (CompactionBoundary × FailureMode)) (force retainAllVersions : Bool) :
    Run (Option CompactionOutcome) := do
  let _ ← flushMemtableInner codec createdAt none
  compactSegmentsInner codec protectedSnapshots createdAt failure force retainAllVersions

/-- Explicit compaction: prunes history outside the protected snapshots. -/
def compact (codec : Codec) (protectedSnapshots : List Nat) (createdAt : Nat) :
    Run (Option CompactionOutcome) :=
  compactInner codec protectedSnapshots createdAt none true false

/-- Automatic compaction: keeps all versions. -/
def compactIfNeeded (codec : Codec) (createdAt : Nat) : Run (Option CompactionOutcome) :=
  compactInner codec [] createdAt none false true

end Rrflow.Lsm

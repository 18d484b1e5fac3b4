import Rrflow.Store.State

/-!
Reads at a stamp.

A reader names typed ranges of version entries. Every entry it gets must belong to
the scope, lie under the key that its own content determines and be a leaf of the
authenticated log under the stamped root. How many keys such a read examines is
decided by the proof-node cache and is a parameter; the budget itself is checked.
-/

namespace Rrflow.Store

open Kernel Checks

inductive Bound
  | unbounded
  | included (id : RuntimeId)
  | excluded (id : RuntimeId)
  deriving DecidableEq

/-- A typed range of version entries. -/
inductive RuntimeVersionedSource
  | schema
  | claims (predicate : Option Predicate)
  | family (space : VersionSpace) (kind : Option RuntimeType)
  | identity (model : RuntimeLogicalModel) (reference : RuntimeRef)
  | identityRange (model : RuntimeLogicalModel) (kind : RuntimeType) (lower upper : Bound)
  | adjacency (relation : RuntimeType) (node : RuntimeRef) (direction : Direction)
  deriving DecidableEq

/-- The commit-time behaviour of an index definition. -/
inductive IndexCommitBindingKind
  | scalar (unique : Bool)
  | bm25
  deriving DecidableEq

structure IndexCommitBindingDefinition where
  id : String
  recordKind : RuntimeType
  fields : List String
  kind : IndexCommitBindingKind
  configurationSha256 : String
  deriving DecidableEq

abbrev IndexWrite := String × Option String

/-- What the code of the store takes from outside: floating-point arithmetic,
SHA-256, the cost of reads, the writes of the record indexes and the limits on the
size of a write set. -/
structure Externals where
  floats : Floats
  digests : Digests
  payloadDigest : Payload → String
  journalDigest : ControlJournalEntry → String
  keysExamined : State → ReadStamp → List RuntimeVersionedSource → Nat
  indexEffects : State → RuntimeCommit → RuntimeSchemaRegistry → (catalogueRevision start : Nat) →
    Except Error (List IndexWrite)
  indexBindings : State → ScopeId → (catalogueRevision : Nat) →
    List IndexCommitBindingDefinition → Except Error (List IndexWrite)
  withinLimits : State → List Write → Except Error Unit

variable (kind : Option RuntimeType)

namespace RuntimeVersionedSource

def records : RuntimeVersionedSource := .family .record kind

def relations : RuntimeVersionedSource := .family .relation kind

def events : RuntimeVersionedSource := .family .event kind

def vectors : RuntimeVersionedSource := .family .vector kind

def series : RuntimeVersionedSource := .family .series kind

def geo : RuntimeVersionedSource := .family .geo kind

def objects : RuntimeVersionedSource := .family .object kind

def all : List RuntimeVersionedSource :=
  [schema, claims none, records none, relations none, events none, vectors none, series none,
    geo none, objects none]

end RuntimeVersionedSource

def VersionSpace.ofFamily : RuntimeMutationFamily → Option VersionSpace
  | .record => some .record
  | .relation => some .relation
  | .event => some .event
  | .vector => some .vector
  | .series => some .series
  | .geo => some .geo
  | .object => some .object
  | .claim => none

def versionSpaceForModel (model : RuntimeLogicalModel) : Except Error VersionSpace :=
  match VersionSpace.ofFamily model.family with
  | some space => .ok space
  | none => .error (.substrate "claim identities require subject/predicate selection")

/-! ### Ranges -/

/-- A place between identities. -/
inductive Cut
  | first
  | before (id : RuntimeId)
  | after (id : RuntimeId)
  | last
  deriving DecidableEq

def Cut.lt : Cut → Cut → Bool
  | _, .first | .last, _ => false
  | .first, _ | _, .last => true
  | .before a, .after b => a ≤ b
  | .before a, .before b | .after a, .before b | .after a, .after b => a < b

def Bound.lowerCut : Bound → Cut
  | .unbounded => .first
  | .included id => .before id
  | .excluded id => .after id

def Bound.upperCut : Bound → Cut
  | .unbounded => .last
  | .included id => .after id
  | .excluded id => .before id

/-- The part of a keyspace that a source selects. -/
inductive Area
  | schema
  | claims (predicate : Option Predicate)
  | versions (space : VersionSpace) (kind : Option RuntimeType) (start stop : Cut)
  | edges (direction : Direction) (node : RuntimeRef) (kind : RuntimeType)
  deriving DecidableEq

/-- The lower bound does not lie above the upper one, and one of them is there. -/
def validInterval : Bound → Bound → Bool
  | .unbounded, .unbounded => false
  | .unbounded, _ | _, .unbounded => true
  | .included a, .included b | .included a, .excluded b
  | .excluded a, .included b | .excluded a, .excluded b => a ≤ b

def sourceInterval : RuntimeVersionedSource → Except Error Area
  | .schema => .ok .schema
  | .claims predicate => .ok (.claims predicate)
  | .family space kind => .ok (.versions space kind .first .last)
  | .identity model reference => do
      let space ← versionSpaceForModel model
      return .versions space (some reference.kind) (.before reference.id) (.after reference.id)
  | .identityRange model kind lower upper => do
      ensure (validInterval lower upper) (.substrate "invalid runtime identity interval")
      let space ← versionSpaceForModel model
      -- equal ends with a strict side select no identity
      return .versions space (some kind)
        (if lower.lowerCut.lt upper.upperCut then lower.lowerCut else upper.upperCut)
        upper.upperCut
  | .adjacency relation node direction => .ok (.edges direction node relation)

def Area.isEmpty : Area → Bool
  | .versions _ _ start stop => start = stop
  | _ => false

/-- Two options that do not name different things. -/
def compatible {α : Type} [DecidableEq α] : Option α → Option α → Bool
  | some a, some b => a = b
  | _, _ => true

def Area.overlaps : Area → Area → Bool
  | .schema, .schema => true
  | .claims a, .claims b => compatible a b
  | .versions space kind start stop, .versions space' kind' start' stop' =>
    space = space' && compatible kind kind' && start.lt stop' && start'.lt stop
  | .edges direction node kind, .edges direction' node' kind' =>
    direction = direction' && node = node' && kind = kind'
  | _, _ => false

/-- The name of the access path of an area. -/
def Area.path : Area → String
  | .schema => "SchemaVersions"
  | .claims _ => "ClaimVersions"
  | .versions .record .. => "RecordVersions"
  | .versions .relation .. => "RelationVersions"
  | .versions .event .. => "EventVersions"
  | .versions .vector .. => "VectorVersions"
  | .versions .series .. => "SeriesVersions"
  | .versions .geo .. => "GeoVersions"
  | .versions .object .. => "ObjectVersions"
  | .edges .. => "AdjacencyVersions"

/-- One more source: empty ranges and repeated sources are passed over, ranges that
overlap another one are refused. -/
def admitSource (admitted : List (RuntimeVersionedSource × Area)) (source : RuntimeVersionedSource) :
    Except Error (List (RuntimeVersionedSource × Area)) := do
  let area ← sourceInterval source
  if area.isEmpty || admitted.any (·.1 = source) then return admitted
  ensure (admitted.all fun other => !area.overlaps other.2)
    (.substrate ("runtime versioned read contains overlapping " ++ area.path ++ " ranges"))
  return admitted ++ [(source, area)]

def admitSources (sources : List RuntimeVersionedSource) :
    Except Error (List (RuntimeVersionedSource × Area)) :=
  sources.foldlM admitSource []

/-! ### Version entries -/

inductive VersionPlace
  | schema (key : SchemaVersionKey)
  | claim (key : ClaimVersionKey)
  | version (space : VersionSpace) (key : VersionKey)
  | edge (direction : Direction) (key : EdgeVersionKey)
  deriving DecidableEq

/-- Whether a reference lies between two cuts of a kind. -/
def inInterval (start stop : Cut) (reference : RuntimeRef) : Bool :=
  compatible kind (some reference.kind) && !(Cut.before reference.id).lt start &&
    (Cut.before reference.id).lt stop

/-- Whether an edge is kept at a node under a kind. -/
def inAdjacency (scope : ScopeId) (node : RuntimeRef) (kind : RuntimeType) (edge : EdgeKey) : Bool :=
  (ofLex edge).1 = scope && (ofLex (ofLex edge).2).1 = node &&
    (ofLex (ofLex (ofLex edge).2).2).1 = kind

def scanArea (state : State) (scope : ScopeId) : Area → List (VersionPlace × RuntimeChange)
  | .schema =>
    (state.logged.schemaVersions.toList.filter fun entry => (ofLex entry.1).1 = scope).map
      fun entry => (.schema entry.1, entry.2)
  | .claims predicate =>
    (state.logged.claimVersions.toList.filter fun entry => (ofLex entry.1).1 = scope &&
      compatible predicate (some (ofLex (ofLex entry.1).2).1)).map
      fun entry => (.claim entry.1, entry.2)
  | .versions space kind start stop =>
    ((state.logged.versions space).toList.filter fun entry =>
      (ofLex entry.1).1 = scope && inInterval kind start stop (ofLex (ofLex entry.1).2).1).map
      fun entry => (.version space entry.1, entry.2)
  | .edges direction node kind =>
    ((state.logged.edgeVersions direction).toList.filter fun entry =>
      inAdjacency scope node kind (ofLex entry.1).1).map
      fun entry => (.edge direction entry.1, entry.2)

structure VersionAddress where
  space : VersionSpace
  reference : RuntimeRef
  effectiveAt : Nat
  deriving DecidableEq

def escaped (change : RuntimeChange) : Error :=
  .codec ("runtime semantic version " ++ toString change.cursor ++ " escaped its selected family")

def versionAddress (change : RuntimeChange) : Except Error VersionAddress :=
  match change.mutation with
  | .record value => .ok ⟨.record, value.reference, value.validFrom⟩
  | .relation value => .ok ⟨.relation, value.reference, value.validFrom⟩
  | .event event => .ok ⟨.event, .event event.kind change.cursor, change.at_⟩
  | .vector value => .ok ⟨.vector, value.reference, value.validFrom⟩
  | .seriesSample sample => .ok ⟨.series, sample.reference, sample.observedAt⟩
  | .geo value => .ok ⟨.geo, value.reference, value.validFrom⟩
  | .object value => .ok ⟨.object, value.reference, change.at_⟩
  | .retire retirement => do
      let space ← versionSpaceForModel retirement.model
      return ⟨space, retirement.reference, retirement.effectiveAt⟩
  | .schema _ | .claim _ => .error (escaped change)

def sourceAcceptsAddress (source : RuntimeVersionedSource) (address : VersionAddress) :
    Except Error Bool :=
  match source with
  | .family space kind =>
    .ok (space = address.space && compatible kind (some address.reference.kind))
  | .identity model reference => do
      let space ← versionSpaceForModel model
      return space = address.space && reference = address.reference
  | .identityRange model kind lower upper => do
      let space ← versionSpaceForModel model
      return space = address.space &&
        inInterval (some kind) lower.lowerCut upper.upperCut address.reference
  | .schema | .claims _ | .adjacency .. => .ok false

def expectedVersionKey (source : RuntimeVersionedSource) (area : Area) (change : RuntimeChange) :
    Except Error VersionPlace :=
  match source, change.mutation with
  | .schema, .schema _ => .ok (.schema (schemaVersionKey change.scope change.cursor))
  | .claims predicate, .claim claim =>
    if compatible predicate (some claim.predicate) then
      .ok (.claim (claimVersionKey change.scope claim change.cursor))
    else .error (escaped change)
  | _, _ => do
      let address ← versionAddress change
      let accepted ← sourceAcceptsAddress source address
      ensure accepted (.codec ("runtime semantic version " ++ toString change.cursor ++
        " escaped its selected " ++ area.path ++ " family"))
      return .version address.space
        (versionKey change.scope address.reference address.effectiveAt change.cursor)

/-- A relation version is keyed by its own endpoints; a retirement carries none, so
its key must name the node and the retired relation. -/
def adjacencyEntryMatches (relationKind : RuntimeType) (node : RuntimeRef) (direction : Direction)
    (key : EdgeVersionKey) (change : RuntimeChange) : Bool :=
  match change.mutation with
  | .relation relation =>
    relation.reference.kind = relationKind && (direction.endpoints relation).1 = node &&
      key = edgeVersionKey direction change.scope relation relation.validFrom change.cursor
  | .retire retirement =>
    let edge := ofLex (ofLex key).1
    let rest := ofLex (ofLex edge.2).2
    retirement.model = .graphRelation && edge.1 = change.scope && (ofLex edge.2).1 = node &&
      retirement.reference.kind = relationKind &&
      RuntimeRef.of rest.1 (ofLex rest.2).2 = retirement.reference &&
      (ofLex key).2 = toLex (.toDual retirement.effectiveAt, .toDual change.cursor)
  | _ => false

variable (digests : Digests)

def validateVersionEntry (source : RuntimeVersionedSource) (area : Area) (read : ReadStamp)
    (place : VersionPlace) (change : RuntimeChange) : Except Error Unit := do
  ensure (change.scope = read.scope ∧ change.cursor ≠ 0 ∧ change.cursor ≤ read.commitCursor)
    (.readStampMismatch read.manifestId)
  ensure (change.verifyDigest digests)
    (.substrate ("runtime semantic version " ++ toString change.cursor ++
      " failed digest verification"))
  match source, place with
  | .adjacency relation node direction, .edge _ key =>
    ensure (adjacencyEntryMatches relation node direction key change)
      (.codec ("runtime adjacency version " ++ toString change.cursor ++
        " does not match its typed key"))
  | _, _ => do
      let expected ← expectedVersionKey source area change
      ensure (place = expected)
        (.codec ("runtime semantic version " ++ toString change.cursor ++
          " does not match its typed key"))

/-- Versions are collected by cursor; two different ones at a cursor are an error. -/
def insertVersion (changes : SortedMap Nat RuntimeChange) (change : RuntimeChange) :
    Except Error (SortedMap Nat RuntimeChange) :=
  match changes.find? change.cursor with
  | none => .ok (changes.insert change.cursor change)
  | some other => do
      ensure (other = change)
        (.substrate ("runtime cursor " ++ toString change.cursor ++
          " resolved to conflicting semantic versions"))
      return changes

/-! ### The authenticated log -/

variable (accumulator : LogLeaves)

namespace LogLeaves

def new : LogLeaves := ⟨[]⟩

def treeSize : Nat := accumulator.leaves.length

def root : String :=
  digests.root accumulator.leaves

def appendChange (change : RuntimeChange) : Except Error LogLeaves := do
  ensure (change.verifyDigest digests ∧ change.cursor = accumulator.treeSize + 1)
    (.kernel (.invalidRuntime "runtime change is not the next valid accumulator leaf"))
  ensure (accumulator.treeSize < u64Max)
    (.kernel (.invalidRuntime "runtime accumulator tree size overflow"))
  return ⟨accumulator.leaves ++ [change]⟩

/-- The stored nodes give the frontier of a retained size under its root. -/
def checkRetained (size : Nat) (root : String) : Except Error Unit := do
  ensure (size ≤ accumulator.treeSize)
    (.kernel (.invalidRuntime "runtime accumulator is missing a frontier node"))
  ensure (digests.root (accumulator.leaves.take size) = root)
    (.kernel (.invalidRuntime "runtime accumulator root disagrees with its frontier"))

/-- The inclusion proof of a change verifies under the root of the log. -/
def verifyChange (change : RuntimeChange) : Except Error Unit := do
  ensure (change.verifyDigest digests)
    (.kernel (.invalidRuntime "runtime change does not match the inclusion-proof leaf"))
  ensure (accumulator.leaves[change.cursor - 1]? = some change)
    (.kernel (.invalidRuntime "runtime inclusion proof does not match its accumulator root"))

end LogLeaves

variable (state : State)

/-- The stored accumulator, which must have the size of the log. -/
def loadAccumulator (expectedSize : Nat) : Except Error (Option LogLeaves) :=
  match state.accumulator with
  | some accumulator => do
      ensure (accumulator.treeSize = expectedSize)
        (.substrate ("runtime accumulator size " ++ toString accumulator.treeSize ++
          " differs from cursor " ++ toString expectedSize))
      return some accumulator
  | none => .ok (if expectedSize = 0 then some .new else none)

def currentAccumulator (expectedSize : Nat) : Except Error LogLeaves := do
  match ← loadAccumulator state expectedSize with
  | some accumulator => return accumulator
  | none => .error (.substrate ("runtime accumulator is absent at non-empty cursor " ++
      toString expectedSize))

/-- The nodes of the stored log, which outlive every frontier. -/
def storedLog : LogLeaves :=
  state.accumulator.getD .new

def readStampWith (scope : ScopeId) : Except Error ReadStamp := do
  let accumulator ← currentAccumulator state state.cursor
  lift (ReadStamp.authenticated digests scope ((state.schema? scope).map (·.revision))
    (state.catalogRevision scope) state.cursor state.headDigest (accumulator.root digests))

def schemaVersionAt (scope : ScopeId) (atCursor : Nat) : Except Error (Option RuntimeChange) :=
  match state.logged.schemaVersions.toList.find? fun entry =>
      (ofLex entry.1).1 = scope && OrderDual.ofDual (ofLex entry.1).2 ≤ atCursor with
  | none => .ok none
  | some (key, text) => do
      let change := text.reread digests.rounded
      ensure (change.scope = scope ∧ change.cursor ≤ atCursor ∧ change.verifyDigest digests ∧
          change.mutation.schema?.isSome ∧ key = schemaVersionKey scope change.cursor)
        (.substrate ("schema version key is invalid for scope " ++ scope.val ++ " at cursor " ++
          toString atCursor))
      return some change

variable (read : ReadStamp)

def retainedHead : Except Error (Option RuntimeChange) :=
  if read.commitCursor = 0 then .ok none
  else
    match state.logged.changes.find? read.commitCursor with
    | none => .error (.readStampUnavailable read.manifestId)
    | some text => do
        let change := text.reread digests.rounded
        ensure (change.cursor = read.commitCursor ∧ change.verifyDigest digests)
          (.substrate ("runtime change " ++ toString read.commitCursor ++
            " failed cursor/digest verification"))
        (storedLog state).verifyChange digests change
        return some change

def validateCurrentStamp (root : String) : Except Error Unit := do
  let accumulator ← loadAccumulator state state.cursor
  ensure (read.catalogRevision = state.catalogRevision read.scope ∧
      read.headDigest = state.headDigest ∧
      read.schemaRevision = (state.schema? read.scope).map (·.revision) ∧
      accumulator.any fun accumulator => root = accumulator.root digests)
    (.readStampMismatch read.manifestId)

/-- An older stamp is compared with the retained history. -/
def validateRetainedStamp (root : String) : Except Error Unit := do
  (storedLog state).checkRetained digests read.commitCursor root
  let head ← retainedHead digests state read
  let schema ← schemaVersionAt digests state read.scope read.commitCursor
  schema.toList.forM ((storedLog state).verifyChange digests)
  ensure (read.catalogRevision = state.catalogRevision read.scope ∧
      read.headDigest = head.map (·.digest) ∧
      read.schemaRevision = (schema.bind (·.mutation.schema?)).map (·.revision))
    (.readStampMismatch read.manifestId)

def validateReadStamp : Except Error Unit := do
  lift (read.validate digests)
  ensure (read.commitCursor ≤ state.cursor) (.readStampUnavailable read.manifestId)
  match read.accumulatorRoot with
  | none => .error (.readStampMismatch read.manifestId)
  | some root =>
    if read.commitCursor = state.cursor then validateCurrentStamp digests state read root
    else validateRetainedStamp digests state read root

/-- One entry of a scan: entries after the stamp are passed over. -/
def readEntry (source : RuntimeVersionedSource) (area : Area) (read : ReadStamp)
    (selected : SortedMap Nat RuntimeChange) (entry : VersionPlace × RuntimeChange) :
    Except Error (SortedMap Nat RuntimeChange) :=
  let change := entry.2.reread digests.rounded
  if read.commitCursor < change.cursor then .ok selected
  else do
    validateVersionEntry digests source area read entry.1 change
    insertVersion selected change

def readSource (selected : SortedMap Nat RuntimeChange) (source : RuntimeVersionedSource × Area) :
    Except Error (SortedMap Nat RuntimeChange) :=
  (scanArea state read.scope source.2).foldlM (readEntry digests source.1 source.2 read) selected

variable (externals : Externals)

/-- The authenticated versions of some sources, in cursor order. -/
def readVersioned (state : State) (read : ReadStamp) (sources : List RuntimeVersionedSource)
    (maxKeys : Nat) : Except Error (List RuntimeChange) := do
  ensure (maxKeys ≠ 0)
    (.substrate "runtime versioned-read key budget must be greater than zero")
  ensure (sources ≠ []) (.substrate "runtime versioned read requires at least one typed source")
  let step ← admitSources sources
  match read.accumulatorRoot with
  | none => .error (.readStampMismatch read.manifestId)
  | some root => do
      validateReadStamp externals.digests state read
      ensure (externals.keysExamined state read sources ≤ maxKeys)
        (.runtimeReadBudgetExceeded maxKeys)
      let selected ← step.foldlM (readSource externals.digests state read) .empty
      (storedLog state).checkRetained externals.digests read.commitCursor root
      selected.values.forM ((storedLog state).verifyChange externals.digests)
      return selected.values

/-- The bound on the keys of an integrity check of the write path. -/
def authenticatedHistoryIntegrity (commitCursor : Nat) : Except Error Nat := do
  let maxKeys := commitCursor * 65 + 64 + 5
  ensure (maxKeys ≤ u64Max) .sequenceOverflow
  return maxKeys

def schemaAtRead (read : ReadStamp) (changes : List RuntimeChange) :
    Except Error RuntimeSchemaRegistry := do
  match read.schemaRevision with
  | none => .error (.runtimeSchemaMissing read.scope.val)
  | some expected =>
    match ((visibleChanges changes read.scope read.commitCursor).filterMap
        fun change => change.mutation.schema?).getLast? with
    | none => .error (.runtimeSchemaMissing read.scope.val)
    | some schema => do
        ensure (schema.revision = expected)
          (.readStampUnavailable ("schema revision " ++ toString expected ++ " for scope " ++
            read.scope.val ++ " at cursor " ++ toString read.commitCursor))
        return schema

/-- The data of a scope at an instant, as of the current head. -/
def dataSnapshot (state : State) (scope : ScopeId) (validAt maxKeys : Nat) :
    Except Error RuntimeDataSnapshot := do
  let read ← readStampWith externals.digests state scope
  let changes ← readVersioned externals state read RuntimeVersionedSource.all maxKeys
  if read.schemaRevision.isSome then do
    let schema ← schemaAtRead read changes
    lift (RuntimeDataSnapshot.fromChanges changes schema scope validAt read.commitCursor)
  else lift (RuntimeDataSnapshot.fromClaimChanges changes scope validAt read.commitCursor)

end Rrflow.Store

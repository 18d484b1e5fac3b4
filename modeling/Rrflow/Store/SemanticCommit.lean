import Rrflow.Store.VersionedRead

/-!
The semantic commit.

A commit is prepared against one captured state: its checks run there and its
effects are encoded as one list of writes. Nothing is visible until that list is
applied as a whole.
-/

namespace Rrflow.Store

open Kernel Checks

/-! ### Constraint inputs -/

inductive EdgeRange
  | node (direction : Direction) (near : RuntimeRef) (kind : RuntimeType)
  | pair (source target : RuntimeRef) (kind : RuntimeType)
  deriving DecidableEq

def EdgeRange.direction : EdgeRange → Direction
  | .node direction .. => direction
  | .pair .. => .outgoing

variable (scope : ScopeId)

def EdgeRange.selects (key : EdgeKey) : EdgeRange → Bool
  | .node _ near kind =>
    let rest := ofLex (ofLex key).2
    (ofLex key).1 = scope && rest.1 = near && (ofLex rest.2).1 = kind
  | .pair source target kind =>
    let rest := ofLex (ofLex key).2
    (ofLex key).1 = scope && rest.1 = source && (ofLex rest.2).1 = kind &&
      (ofLex (ofLex rest.2).2).1 = target

/-- The adjacency ranges that the new relation can fill up. -/
def constraintRanges (schema : RuntimeSchemaRegistry) (relation : RuntimeRelation) :
    List EdgeRange :=
  match schema.relations.find? relation.reference.kind with
  | none => []
  | some rule =>
    let kind := relation.reference.kind
    (if rule.maxOutgoing.isSome then [.node .outgoing relation.from_ kind]
      else if rule.uniquePair then [.pair relation.from_ relation.to_ kind]
      else []) ++
    if rule.maxIncoming.isSome then [.node .incoming relation.to_ kind] else []

/-- Whether records of a kind have a property with unique values. -/
def hasUniqueProperties (schema : RuntimeSchemaRegistry) (kind : RuntimeType) : Bool :=
  (schema.records.find? kind).any fun rule => rule.uniqueProperties.toList ≠ []

variable (state : State)

def loadKind (scope : ScopeId) (kind : RuntimeType) : Except Error (List RuntimeRecord) :=
  (state.logged.records.toList.filter fun entry =>
    (ofLex entry.1).1 = scope && (ofLex entry.1).2.kind = kind).mapM fun entry => do
      ensure (entry.2.reference.kind = kind ∧ entry.1 = identityKey scope entry.2.reference)
        (.substrate "constraint record key differs from its identity")
      return entry.2

def loadEdge (direction : Direction) (relations : SortedMap RuntimeRef RuntimeRelation)
    (entry : EdgeKey × RuntimeRelation) : Except Error (SortedMap RuntimeRef RuntimeRelation) := do
  ensure (entry.1 = edgeKey direction scope entry.2)
    (.substrate "constraint adjacency key differs from its relation")
  ensure ((relations.find? entry.2.reference).all (· = entry.2))
    (.substrate "constraint adjacency copies disagree")
  return relations.insert entry.2.reference entry.2

/-- The relations of one range, added to those of the ranges before. -/
def loadRange (scope : ScopeId) (relations : SortedMap RuntimeRef RuntimeRelation)
    (range : EdgeRange) : Except Error (SortedMap RuntimeRef RuntimeRelation) :=
  ((state.logged.edges range.direction).toList.filter fun entry =>
    range.selects scope entry.1).foldlM (loadEdge scope range.direction) relations

variable (commit : RuntimeCommit)

/-- The current rows that a commit is checked against. A new schema can constrain
any row of the scope; otherwise only the groups that the commit writes are read. -/
def loadConstraints (schema : RuntimeSchemaRegistry) (schemaChanged : Bool) :
    Except Error (List RuntimeRecord × List RuntimeRelation) :=
  if schemaChanged then
    .ok (
      if schema.records.values.any fun rule => rule.uniqueProperties.toList ≠ [] then
        state.logged.recordsOf commit.scope else [],
      if schema.relations.values.any fun rule =>
          rule.uniquePair || rule.maxOutgoing.isSome || rule.maxIncoming.isSome then
        state.logged.relationsOf commit.scope else [])
  else do
    let kinds := (commit.mutations.filterMap RuntimeMutation.record?).foldl
      (fun kinds record =>
        if hasUniqueProperties schema record.reference.kind then
          kinds.insert record.reference.kind () else kinds)
      (SortedMap.empty : SortedSet RuntimeType)
    let ranges := (commit.mutations.filterMap RuntimeMutation.relation?).flatMap
      (constraintRanges schema)
    let records ← kinds.keys.mapM (loadKind state commit.scope)
    let relations ← ranges.foldlM (loadRange state commit.scope) .empty
    return (records.flatten, relations.values)

/-- The schema under which a commit is checked. A scope without a schema accepts
claims alone. -/
def effectiveSchema : Except Error (Option RuntimeSchemaRegistry) :=
  match state.schema? commit.scope, commit.mutations.findSome? RuntimeMutation.schema? with
  | none, none =>
    if commit.mutations.all RuntimeMutation.isClaim then .ok none
    else .error (.runtimeSchemaMissing commit.scope.val)
  | none, some registry => do
      ensure (registry.revision = 1) (.runtimeSchemaConflict 1 registry.revision)
      return some registry
  | some previous, some registry => do
      let expected := min (previous.revision + 1) u64Max
      ensure (registry.revision = expected) (.runtimeSchemaConflict expected registry.revision)
      return some registry
  | some previous, none => .ok (some previous)

def validateSchemaAndObjects : Except Error (Option RuntimeSchemaRegistry) := do
  match ← effectiveSchema state commit with
  | none => return none
  | some schema => do
      let (records, relations) ← loadConstraints state commit schema
        (commit.mutations.any fun mutation => mutation.schema?.isSome)
      lift (schema.validateObjects commit.mutations records relations)
      return some schema

def validateReferences : Except Error Unit :=
  let newRecords := (commit.mutations.filterMap RuntimeMutation.record?).map (·.reference)
  (commit.mutations.flatMap RuntimeMutation.references).forM fun reference =>
    ensure (reference ∈ newRecords ∨ (state.logged.record? commit.scope reference).isSome)
      (.danglingRuntimeReference (reference.text ++ " in scope " ++ commit.scope.val))

variable (externals : Externals)

/-- Every retired identity must be there at its effective time. -/
def validateRetirementTargets (state : State) (commit : RuntimeCommit) (head : Nat) :
    Except Error Unit :=
  let retirements := commit.mutations.filterMap RuntimeMutation.retirement?
  if retirements = [] then .ok ()
  else do
    let read ← readStampWith externals.digests state commit.scope
    ensure (read.commitCursor = head)
      (.readStampUnavailable ("retirement validation for " ++ commit.scope.val ++
        " moved from cursor " ++ toString head ++ " to " ++ toString read.commitCursor))
    let maxKeys ← authenticatedHistoryIntegrity head
    let changes ← readVersioned externals state read
      (.schema :: retirements.map fun retirement =>
        .identity retirement.model retirement.reference) maxKeys
    let schema ← schemaAtRead read changes
    retirements.forM fun retirement => do
      let snapshot ← lift (RuntimeDataSnapshot.fromChanges changes schema commit.scope
        retirement.effectiveAt head)
      ensure (snapshot.contains retirement.model retirement.reference)
        (.runtimeTargetNotFound (retirement.model.debug ++ " " ++ retirement.reference.text ++
          " at " ++ toString retirement.effectiveAt ++ " in scope " ++ commit.scope.val))

/-! ### Encoded effects -/

/-- Relation rows that earlier mutations of the commit wrote or removed. -/
abbrev StagedRelations := SortedMap RuntimeRef (Option RuntimeRelation)

def currentRelation (spaces : LogSpaces) (staged : StagedRelations) (scope : ScopeId)
    (reference : RuntimeRef) : Option RuntimeRelation :=
  (staged.find? reference).getD (spaces.relation? scope reference)

variable (relation : RuntimeRelation)

def putAdjacency (effectiveAt : Nat) (change : RuntimeChange) : List LogWrite :=
  [.outgoing, .incoming].flatMap fun direction =>
    [.edge direction (edgeKey direction scope relation) (some relation),
      .edgeVersion direction
        (edgeVersionKey direction scope relation effectiveAt change.cursor) change]

def putTemporalAdjacency (effectiveAt : Nat) (change : RuntimeChange) : List LogWrite :=
  [.outgoing, .incoming].map fun direction =>
    .edgeVersion direction
      (edgeVersionKey direction scope relation effectiveAt change.cursor) change

def deleteCurrentAdjacency : List LogWrite :=
  [.outgoing, .incoming].map fun direction =>
    .edge direction (edgeKey direction scope relation) none

def putVersion (space : VersionSpace) (scope : ScopeId) (reference : RuntimeRef)
    (effectiveAt : Nat) (change : RuntimeChange) : LogWrite :=
  .version space (versionKey scope reference effectiveAt change.cursor) change

/-- The effects of a retirement. A relation is written to its versions only while
it has a current row. -/
def encodeRetirement (spaces : LogSpaces) (staged : StagedRelations) (scope : ScopeId)
    (retirement : RuntimeRetirement) (change : RuntimeChange) :
    List LogWrite × StagedRelations :=
  let reference := retirement.reference
  let version := fun space => putVersion space scope reference retirement.effectiveAt change
  match retirement.model.family with
  | .record => ([version .record, .record (identityKey scope reference) none], staged)
  | .relation =>
    match currentRelation spaces staged scope reference with
    | some relation =>
      (version .relation ::
        (putTemporalAdjacency scope relation retirement.effectiveAt change ++
          deleteCurrentAdjacency scope relation ++
          [.relation (identityKey scope reference) none]),
        staged.insert reference none)
    | none => ([.relation (identityKey scope reference) none], staged)
  | .event => ([version .event], staged)
  | .vector => ([version .vector], staged)
  | .series => ([version .series], staged)
  | .geo => ([version .geo], staged)
  | .object => ([version .object], staged)
  | .claim => ([], staged)

/-- The effects of one change on the keyspaces of its family. -/
def encodeDomainEffect (spaces : LogSpaces) (staged : StagedRelations) (scope : ScopeId)
    (change : RuntimeChange) : List LogWrite × StagedRelations :=
  match change.mutation with
  | .schema registry =>
    ([.schema scope registry, .schemaVersion (schemaVersionKey scope change.cursor) change], staged)
  | .claim claim => ([.claimVersion (claimVersionKey scope claim change.cursor) change], staged)
  | .record record =>
    ([.record (identityKey scope record.reference) (some record),
      putVersion .record scope record.reference record.validFrom change], staged)
  | .relation relation =>
    ((match currentRelation spaces staged scope relation.reference with
      | some previous => deleteCurrentAdjacency scope previous
      | none => []) ++
      (.relation (identityKey scope relation.reference) (some relation) ::
        putVersion .relation scope relation.reference relation.validFrom change ::
        putAdjacency scope relation relation.validFrom change),
      staged.insert relation.reference (some relation))
  | .event event =>
    ([putVersion .event scope (.event event.kind change.cursor) change.at_ change], staged)
  | .vector vector =>
    ([putVersion .vector scope vector.reference vector.validFrom change], staged)
  | .seriesSample sample =>
    ([putVersion .series scope sample.reference sample.observedAt change], staged)
  | .geo geo => ([putVersion .geo scope geo.reference geo.validFrom change], staged)
  | .object object => ([putVersion .object scope object.reference change.at_ change], staged)
  | .retire retirement => encodeRetirement spaces staged scope retirement change

structure Plan where
  cursor : Nat
  claimSequence : Nat
  previousDigest : Option String
  accumulator : LogLeaves
  staged : StagedRelations
  ordinal : Nat
  outboxCount : Nat
  writes : List Write

/-- A claim takes the next sequence number; the sequence points at its row. -/
def encodeClaim (sequence : Nat) (claim : Claim) : Except Error (Nat × List ClaimWrite) := do
  let sequence ← next sequence
  return (sequence, [.claim (claimKey claim) claim.stored, .sequence sequence (claimKey claim)])

def encodeMutationClaim (sequence : Nat) (mutation : RuntimeMutation) :
    Except Error (Nat × List ClaimWrite) :=
  match mutation with
  | .claim claim => do
      lift claim.validate
      encodeClaim sequence claim
  | _ => .ok (sequence, [])

def Plan.add (state : State) (commit : RuntimeCommit) (plan : Plan) (mutation : RuntimeMutation) :
    Except Error Plan := do
  let (claimSequence, claimWrites) ← encodeMutationClaim plan.claimSequence mutation
  let cursor ← next plan.cursor
  let change := RuntimeChange.committed externals.digests cursor commit
    (externals.digests.commit commit) plan.ordinal mutation plan.previousDigest
  let accumulator ← plan.accumulator.appendChange externals.digests change
  let (effects, staged) := encodeDomainEffect state.logged plan.staged commit.scope change
  return { cursor, claimSequence, previousDigest := some change.digest, accumulator, staged
           ordinal := plan.ordinal + 1
           outboxCount := plan.outboxCount + (if mutation.isProjected then 1 else 0)
           writes := plan.writes ++
             (claimWrites.map .claim ++ (.change cursor change :: effects).map .logged) }

/-- The state of the log and of the audit chain after a plan. -/
def closingWrites (commit : RuntimeCommit) (plan : Plan) (catalogueRevision : Nat)
    (audit : AuditEnvelope) (outcome : RuntimeCommitOutcome) : List Write :=
  (if commit.mutations.any RuntimeMutation.isClaim then
    [.claim (.watermark plan.claimSequence)] else []) ++
  [.cursor plan.cursor,
    .lastDigest (plan.previousDigest.getD ""),
    .accumulator plan.accumulator,
    .control (.catalogRevision commit.scope catalogueRevision),
    .audit outcome.commitId audit,
    .lastAudit audit.digest,
    .commit outcome.commitId outcome]

/-- The evidence that comes with a commit: an archived audit envelope or a live read
stamp. -/
def validateEvidence (state : State) (read : Option ReadStamp)
    (archivedAudit : Option AuditEnvelope) : Except Error Unit :=
  match archivedAudit, read with
  | some audit, _ => do
      lift (audit.validate externals.digests)
      audit.read.toList.forM fun read => lift (read.validate externals.digests)
  | none, some read => validateReadStamp externals.digests state read
  | none, none => .ok ()

/-- The index writes of a commit; without a schema there are no indexes. -/
def recordIndexEffects (state : State) (commit : RuntimeCommit) :
    Option RuntimeSchemaRegistry → Except Error (List IndexWrite)
  | some schema =>
    externals.indexEffects state commit schema (state.catalogRevision commit.scope) state.cursor
  | none => .ok []

/-- Prepares a commit, bound to a read stamp if there is one, or as the replay of
an archived one with its audit envelope. -/
def prepareSemanticCommit (state : State) (commit : RuntimeCommit) (read : Option ReadStamp)
    (archivedAudit : Option AuditEnvelope) :
    Except Error (RuntimeCommitOutcome × List Write) := do
  lift (commit.validate externals.floats)
  ensure (¬(read.isSome ∧ archivedAudit.isSome))
    (.archive "archive replay cannot also supply a live read stamp")
  validateEvidence externals state read archivedAudit
  let commitId := externals.digests.commit commit
  let start := state.cursor
  ensure (start = commit.expectedCursor) (.runtimeConflict commit.expectedCursor start)
  let accumulator ← currentAccumulator state start
  validateRetirementTargets externals state commit start
  let schema ← validateSchemaAndObjects state commit
  validateReferences state commit
  let catalogueRevision := state.catalogRevision commit.scope
  let plan ← commit.mutations.foldlM (Plan.add externals state commit)
    { cursor := start, claimSequence := state.claims.watermark, previousDigest := state.headDigest
      accumulator, staged := .empty, ordinal := 0, outboxCount := 0, writes := [] }
  let indexWrites ← recordIndexEffects externals state commit schema
  let audit ← lift (AuditEnvelope.acceptedCommitAtRead externals.digests commit
    ((archivedAudit.bind (·.read)).or read) commitId plan.cursor state.headAudit)
  ensure (archivedAudit.all (· = audit))
    (.archive ("runtime commit " ++ commitId ++ " audit envelope differs from its archive"))
  let firstCursor ← next start
  let firstClaim ← next state.claims.watermark
  let hasClaims := commit.mutations.any RuntimeMutation.isClaim
  let outcome : RuntimeCommitOutcome :=
    { commitId, firstCursor, lastCursor := plan.cursor, count := commit.mutations.length
      firstClaimSequence := if hasClaims then some firstClaim else none
      lastClaimSequence := if hasClaims then some plan.claimSequence else none
      outboxCount := plan.outboxCount }
  let writes := plan.writes ++
    indexWrites.map (fun write => .control (.index write.1 write.2)) ++
    closingWrites commit plan catalogueRevision audit outcome
  externals.withinLimits state writes
  return (outcome, writes)

end Rrflow.Store

import Rrflow.Kernel.Evidence

/-!
The keyspaces of the semantic store.

A key is the tuple that the key codec encodes; a component that is encoded in
descending order has the dual order here. A scan by a prefix selects the entries
whose first components are given. Derived keyspaces that no semantic read uses
(outbox, projection deltas, vector heads and source deltas, current rows of series,
geo values and objects) are not part of the state.
-/

namespace Rrflow.Store

open Kernel Checks

inductive Error
  | kernel (error : Kernel.Error)
  | substrate (message : String)
  | codec (message : String)
  | sequenceOverflow
  | corruptWatermark (message : String)
  | runtimeConflict (expected actual : Nat)
  | transactionConflict
  | idempotencyConflict (key : String)
  | controlConflict (key : String)
  | danglingRuntimeReference (reference : String)
  | runtimeTargetNotFound (target : String)
  | runtimeSchemaMissing (scope : String)
  | runtimeSchemaConflict (expected actual : Nat)
  | indexConstraint (message : String)
  | readStampUnavailable (stamp : String)
  | readStampMismatch (stamp : String)
  | runtimeReadBudgetExceeded (limit : Nat)
  | archive (message : String)
  | writeLimit (message : String)
  | quarantined (message : String)
  deriving DecidableEq, Repr

/-- Errors of the kernel pass through. -/
def lift {α : Type} (x : Except Kernel.Error α) : Except Error α := x.mapError .kernel

def u64Max : Nat := 2 ^ 64 - 1

def next (n : Nat) : Except Error Nat := do
  ensure (n < u64Max) .sequenceOverflow
  return n + 1

/-! ### Keys -/

/-- The families of values whose versions are kept. -/
inductive VersionSpace
  | record | relation | event | vector | series | geo | object
  deriving DecidableEq, Repr

/-- At which end an adjacency entry is kept. -/
inductive Direction
  | outgoing | incoming
  deriving DecidableEq, Repr

abbrev Descending := Natᵒᵈ

abbrev IdentityKey := ScopeId ×ₗ RuntimeRef

abbrev VersionKey := ScopeId ×ₗ (RuntimeRef ×ₗ (Descending ×ₗ Descending))

abbrev SchemaVersionKey := ScopeId ×ₗ Descending

/-- Scope, predicate, subject, start, transaction time and cursor. -/
abbrev ClaimVersionKey :=
  ScopeId ×ₗ (Predicate ×ₗ (Subject ×ₗ (Descending ×ₗ (Descending ×ₗ Descending))))

abbrev ClaimKey := Subject ×ₗ (Predicate ×ₗ (Descending ×ₗ Descending))

/-- Scope, near node, kind of the relation, far node and identity of the
relation. -/
abbrev EdgeKey := ScopeId ×ₗ (RuntimeRef ×ₗ (RuntimeType ×ₗ (RuntimeRef ×ₗ RuntimeId)))

abbrev EdgeVersionKey := EdgeKey ×ₗ (Descending ×ₗ Descending)

variable (scope : ScopeId)

def identityKey (reference : RuntimeRef) : IdentityKey := toLex (scope, reference)

def versionKey (reference : RuntimeRef) (effectiveAt cursor : Nat) : VersionKey :=
  toLex (scope, toLex (reference, toLex (.toDual effectiveAt, .toDual cursor)))

def schemaVersionKey (cursor : Nat) : SchemaVersionKey :=
  toLex (scope, .toDual cursor)

def claimVersionKey (claim : Claim) (cursor : Nat) : ClaimVersionKey :=
  toLex (scope, toLex (claim.predicate, toLex (claim.subject, toLex (.toDual claim.validFrom,
    toLex (.toDual claim.txTime, .toDual cursor)))))

def claimKey (claim : Claim) : ClaimKey :=
  toLex (claim.subject, toLex (claim.predicate, toLex (.toDual claim.validFrom,
    .toDual claim.txTime)))

variable (direction : Direction)

/-- The node that an edge is kept at, and the other one. -/
def Direction.endpoints (relation : RuntimeRelation) : RuntimeRef × RuntimeRef :=
  match direction with
  | .outgoing => (relation.from_, relation.to_)
  | .incoming => (relation.to_, relation.from_)

def edgeKey (scope : ScopeId) (relation : RuntimeRelation) : EdgeKey :=
  toLex (scope, toLex ((direction.endpoints relation).1, toLex (relation.reference.kind,
    toLex ((direction.endpoints relation).2, relation.reference.id))))

def edgeVersionKey (scope : ScopeId) (relation : RuntimeRelation) (effectiveAt cursor : Nat) :
    EdgeVersionKey :=
  toLex (edgeKey direction scope relation, toLex (.toDual effectiveAt, .toDual cursor))

/-! ### Keyspaces -/

/-- The authenticated log: the changes that were appended to it. They stand for the
frontier, the root and the stored nodes of the kernel's tree (`Rrflow.Store.LogTree`). -/
structure LogLeaves where
  leaves : List RuntimeChange
  deriving DecidableEq

structure AppendOutcome where
  firstSequence : Nat
  lastSequence : Nat
  count : Nat
  deriving DecidableEq

structure IdempotentAppendOutcome where
  operationSha256 : String
  append : AppendOutcome
  idempotentReplay : Bool
  deriving DecidableEq

abbrev Payload := List (Fin 256)

/-- A control record is replaced by another value, or removed. -/
structure ControlTransition where
  key : String
  expected : Option Payload
  replacement : Option Payload
  at_ : Nat
  actor : String
  action : String
  requestId : String
  operationId : String
  deriving DecidableEq

structure ControlJournalEntry where
  sequence : Nat
  key : String
  beforeSha256 : Option String
  replacement : Option Payload
  at_ : Nat
  actor : String
  action : String
  requestId : String
  operationId : String
  previousDigest : Option String
  digest : String
  deriving DecidableEq

/-- The keyspaces that are functions of the change log. -/
structure LogSpaces where
  changes : SortedMap Nat RuntimeChange
  schemas : SortedMap ScopeId RuntimeSchemaRegistry
  schemaVersions : SortedMap SchemaVersionKey RuntimeChange
  claimVersions : SortedMap ClaimVersionKey RuntimeChange
  versions : VersionSpace → SortedMap VersionKey RuntimeChange
  records : SortedMap IdentityKey RuntimeRecord
  relations : SortedMap IdentityKey RuntimeRelation
  edges : Direction → SortedMap EdgeKey RuntimeRelation
  edgeVersions : Direction → SortedMap EdgeVersionKey RuntimeChange

structure ClaimSpaces where
  claims : SortedMap ClaimKey Claim
  sequence : SortedMap Nat ClaimKey
  watermark : Nat
  receipts : SortedMap String IdempotentAppendOutcome

/-- Control records, their journal and what depends on the catalogues. -/
structure ControlSpaces where
  records : SortedMap String Payload
  journal : SortedMap Nat ControlJournalEntry
  sequence : Nat
  digest : Option String
  catalogRevisions : SortedMap ScopeId Nat
  index : SortedMap String String

/-- A watermark that was never written reads as zero, so it is a number here. -/
structure State where
  logged : LogSpaces
  cursor : Nat
  lastDigest : Option String
  accumulator : Option LogLeaves
  audits : SortedMap String AuditEnvelope
  lastAudit : Option String
  commits : SortedMap String RuntimeCommitOutcome
  claims : ClaimSpaces
  control : ControlSpaces

/-! ### Writes -/

inductive LogWrite
  | change (cursor : Nat) (value : RuntimeChange)
  | schema (scope : ScopeId) (value : RuntimeSchemaRegistry)
  | schemaVersion (key : SchemaVersionKey) (value : RuntimeChange)
  | claimVersion (key : ClaimVersionKey) (value : RuntimeChange)
  | version (space : VersionSpace) (key : VersionKey) (value : RuntimeChange)
  | record (key : IdentityKey) (value : Option RuntimeRecord)
  | relation (key : IdentityKey) (value : Option RuntimeRelation)
  | edge (direction : Direction) (key : EdgeKey) (value : Option RuntimeRelation)
  | edgeVersion (direction : Direction) (key : EdgeVersionKey) (value : RuntimeChange)

inductive ClaimWrite
  | claim (key : ClaimKey) (value : Claim)
  | sequence (sequence : Nat) (value : ClaimKey)
  | watermark (value : Nat)
  | receipt (key : String) (value : IdempotentAppendOutcome)

inductive ControlWrite
  | record (key : String) (value : Option Payload)
  | journal (sequence : Nat) (value : ControlJournalEntry)
  | sequence (value : Nat)
  | digest (value : String)
  | catalogRevision (scope : ScopeId) (value : Nat)
  | index (key : String) (value : Option String)

/-- One put or, where the value is optional, delete of a transaction. -/
inductive Write
  | logged (write : LogWrite)
  | cursor (value : Nat)
  | lastDigest (value : String)
  | accumulator (value : LogLeaves)
  | audit (commitId : String) (value : AuditEnvelope)
  | lastAudit (value : String)
  | commit (commitId : String) (value : RuntimeCommitOutcome)
  | claim (write : ClaimWrite)
  | control (write : ControlWrite)

variable (spaces : LogSpaces)

namespace LogSpaces

def empty : LogSpaces :=
  { changes := .empty, schemas := .empty, schemaVersions := .empty, claimVersions := .empty
    versions := fun _ => .empty, records := .empty, relations := .empty
    edges := fun _ => .empty, edgeVersions := fun _ => .empty }

def apply : LogWrite → LogSpaces
  | .change cursor value => { spaces with changes := spaces.changes.insert cursor value }
  | .schema scope value => { spaces with schemas := spaces.schemas.insert scope value }
  | .schemaVersion key value =>
    { spaces with schemaVersions := spaces.schemaVersions.insert key value }
  | .claimVersion key value =>
    { spaces with claimVersions := spaces.claimVersions.insert key value }
  | .version space key value =>
    { spaces with
      versions := Function.update spaces.versions space ((spaces.versions space).insert key value) }
  | .record key value => { spaces with records := spaces.records.assign key value }
  | .relation key value => { spaces with relations := spaces.relations.assign key value }
  | .edge direction key value =>
    { spaces with
      edges := Function.update spaces.edges direction ((spaces.edges direction).assign key value) }
  | .edgeVersion direction key value =>
    { spaces with
      edgeVersions := Function.update spaces.edgeVersions direction
        ((spaces.edgeVersions direction).insert key value) }

def record? (scope : ScopeId) (reference : RuntimeRef) : Option RuntimeRecord :=
  spaces.records.find? (identityKey scope reference)

def relation? (scope : ScopeId) (reference : RuntimeRef) : Option RuntimeRelation :=
  spaces.relations.find? (identityKey scope reference)

/-- The current rows of a scope in key order. -/
def recordsOf (scope : ScopeId) : List RuntimeRecord :=
  (spaces.records.toList.filter fun entry => (ofLex entry.1).1 = scope).map Prod.snd

def relationsOf (scope : ScopeId) : List RuntimeRelation :=
  (spaces.relations.toList.filter fun entry => (ofLex entry.1).1 = scope).map Prod.snd

end LogSpaces

namespace ClaimSpaces

def empty : ClaimSpaces :=
  { claims := .empty, sequence := .empty, watermark := 0, receipts := .empty }

def apply (spaces : ClaimSpaces) : ClaimWrite → ClaimSpaces
  | .claim key value => { spaces with claims := spaces.claims.insert key value }
  | .sequence sequence value => { spaces with sequence := spaces.sequence.insert sequence value }
  | .watermark value => { spaces with watermark := value }
  | .receipt key value => { spaces with receipts := spaces.receipts.insert key value }

end ClaimSpaces

namespace ControlSpaces

def empty : ControlSpaces :=
  { records := .empty, journal := .empty, sequence := 0, digest := none
    catalogRevisions := .empty, index := .empty }

def apply (spaces : ControlSpaces) : ControlWrite → ControlSpaces
  | .record key value => { spaces with records := spaces.records.assign key value }
  | .journal sequence value => { spaces with journal := spaces.journal.insert sequence value }
  | .sequence value => { spaces with sequence := value }
  | .digest value => { spaces with digest := some value }
  | .catalogRevision scope value =>
    { spaces with catalogRevisions := spaces.catalogRevisions.insert scope value }
  | .index key value => { spaces with index := spaces.index.assign key value }

end ControlSpaces

variable (state : State)

namespace State

def empty : State :=
  { logged := .empty, cursor := 0, lastDigest := none, accumulator := none, audits := .empty
    lastAudit := none, commits := .empty, claims := .empty, control := .empty }

def apply : Write → State
  | .logged write => { state with logged := state.logged.apply write }
  | .cursor value => { state with cursor := value }
  | .lastDigest value => { state with lastDigest := some value }
  | .accumulator value => { state with accumulator := some value }
  | .audit commitId value => { state with audits := state.audits.insert commitId value }
  | .lastAudit value => { state with lastAudit := some value }
  | .commit commitId value => { state with commits := state.commits.insert commitId value }
  | .claim write => { state with claims := state.claims.apply write }
  | .control write => { state with control := state.control.apply write }

/-- The writes of a transaction, in order: the last one at a key counts. -/
def applyAll (writes : List Write) : State := writes.foldl apply state

/-- The digest of the last change; an empty text stands for none. -/
def headDigest : Option String := state.lastDigest.filter (· ≠ "")

def headAudit : Option String := state.lastAudit.filter (· ≠ "")

def catalogRevision (scope : ScopeId) : Nat :=
  (state.control.catalogRevisions.find? scope).getD 0

def schema? (scope : ScopeId) : Option RuntimeSchemaRegistry :=
  state.logged.schemas.find? scope

/-- The change log, in cursor order. -/
def log : List RuntimeChange := state.logged.changes.values

@[simp] theorem applyAll_nil : state.applyAll [] = state := rfl

@[simp] theorem applyAll_cons (write : Write) (writes : List Write) :
    state.applyAll (write :: writes) = (state.apply write).applyAll writes := rfl

theorem applyAll_append (writes more : List Write) :
    state.applyAll (writes ++ more) = (state.applyAll writes).applyAll more :=
  List.foldl_append ..

end State

end Rrflow.Store

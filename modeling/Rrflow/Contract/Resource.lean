import Rrflow.Lib.Checks

/-!
Public identifiers and resource paths.

A canonical identifier carries the proof of its form, as the source's private
constructor guarantees it. A resource path is a plain list of typed identifiers;
`validate` says which of them name a resource.
-/

namespace Rrflow.Contract

open Checks

def maxIdBytes : Nat := 128

def isCanonicalByte (first : Bool) (c : Char) : Bool :=
  c.isLower || c.isDigit || (!first && (c == '-' || c == '_' || c == '.'))

/-- Lowercase letters and digits, and after the first character also `-`, `_` and
`.`. -/
def isCanonicalId (value : String) : Bool :=
  match value.toList with
  | [] => false
  | c :: rest => rest.length < maxIdBytes && isCanonicalByte true c &&
      rest.all (isCanonicalByte false)

abbrev CanonicalId := { value : String // isCanonicalId value = true }

instance : LawfulBEq CanonicalId := inferInstance

inductive ResourceKind
  | organization | estate | project | «instance» | tenant | namespace | database | table
  | collection | record | point | relation | alias | cluster | node | shard | replica
  | segment | transaction | snapshot | backup | operation
  deriving DecidableEq, Repr

structure ResourceId where
  kind : ResourceKind
  id : CanonicalId
  deriving DecidableEq

structure ResourcePath where
  segments : List ResourceId
  deriving DecidableEq

/-- One to sixteen segments, each of its own kind. -/
def ResourcePath.validate (path : ResourcePath) : Except String Unit := do
  ensure (path.segments ≠ []) "resource path must contain at least one segment"
  ensure (path.segments.length ≤ 16) "resource path must contain at most 16 segments"
  ensure (path.segments.map ResourceId.kind).Nodup
    "resource path must not repeat a resource kind"

inductive SecurityAction
  | serviceInspect | unknownRequest | sessionCreate | sessionRenew | sessionClose
  | queryExecute | queryLivePoll | queryIndexEnsure | queryIndexList
  | transactionBegin | transactionPreview | transactionCommit | transactionAbort
  | changefeedRead | changefeedFollow | webSocketConnect
  | subscriptionOpen | subscriptionConnect | subscriptionAck | subscriptionClose
  | vectorCollectionEnsure | vectorCollectionList | vectorCollectionDelete
  | vectorPayloadIndexEnsure | vectorPayloadIndexList | vectorPayloadIndexDelete
  | vectorPointRetrieve | vectorPointScroll | vectorSearch
  | embeddingModelList | embeddingGenerate | embeddingSearch
  | backupCreate | backupList | restoreCreate | estateRead | estateAdmin
  | auditRead | auditExport | functionCatalogueRead | functionCatalogueWrite | functionExecute
  | diagnosticsRead | flightLaunch | flightRead | taskWrite | taskRead | securityAdmin
  | memoryContextRead | reasoningRead | reasoningWrite | endpointPropose | workerExecute
  | projectSourceRead | observationPrepare | observationDeliver | observationRead
  | knowledgeTreeRead | knowledgeTreeWrite
  deriving DecidableEq, Repr

end Rrflow.Contract

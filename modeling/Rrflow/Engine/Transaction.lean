import Rrflow.Engine.Session

/-!
Transactions: begin, preview, commit and abort.

A commit takes three durable steps. The intent is written to the session, the runtime
commit is published in the store, and the receipt is written to the session. A request
that finds an intent takes it up where it was left: the runtime commit is looked up by
its digest and published only if it is not there.
-/

namespace Rrflow.Engine

open Kernel Contract Checks Eff

variable {M : Type} (services : Services M)

def instanceScope : Except ServiceError ScopeId :=
  let value := "instance:" ++ services.instance.val
  if h : checkText "runtime scope" value = .ok () then .ok ⟨value, h⟩
  else .error (.contract "invalid runtime scope")

def coreContract {α : Type} (x : Except Kernel.Error α) : Except ServiceError α :=
  x.mapError fun _ => .contract "invalid runtime commit"

def publicRuntimeCommit (request : CommitTransaction M) (sessionId : CorrelationId)
    (expectedCursor at_ : Nat) : Except ServiceError RuntimeCommit := do
  let mutations ← request.mutations.mapM fun mutation => services.runtimeMutation mutation sessionId
  let scope ← instanceScope services
  let commit : RuntimeCommit :=
    { scope, at_, actor := "session:" ++ sessionId.val, expectedCursor, mutations }
  coreContract (commit.validate services.externals.floats)
  return commit

def runtimeReceipt (transactionId : CorrelationId) (operationSha256 : String)
    (accepted : RuntimeCommitOutcome) (idempotentReplay : Bool) : CommitReceipt :=
  let claimCount :=
    match accepted.lastClaimSequence, accepted.firstClaimSequence with
    | some last, some first => last - first + 1
    | _, _ => 0
  { transactionId, operationSha256
    firstClaimSequence := accepted.firstClaimSequence.getD 0
    lastClaimSequence := accepted.lastClaimSequence.getD 0
    mutationCount := accepted.count
    runtimeCommitSha256 := some accepted.commitId
    firstRuntimeCursor := some accepted.firstCursor
    lastRuntimeCursor := some accepted.lastCursor
    claimMutationCount := some claimCount
    idempotentReplay }

/-! ### Functions bound to transactions -/

variable (catalogue : FunctionCatalogue M) (request : CommitTransaction M)

/-- The bindings of a catalogue that a request meets, each with the mutation and its
place. -/
def FunctionCatalogue.met : List (Nat × M × FunctionBinding M) :=
  request.mutations.zipIdx.flatMap fun entry =>
    (catalogue.transactionBindings.filter fun binding => binding.matches_ entry.1).map fun binding =>
      (entry.2, entry.1, binding)

def withEvent (commit : RuntimeCommit) (event : Option RuntimeEvent) : RuntimeCommit :=
  { commit with mutations := commit.mutations ++ (event.map RuntimeMutation.event).toList }

structure PreparedTransactionFunctions where
  commit : RuntimeCommit
  receipts : List FunctionInvocationReceipt

/-- Runs the functions of a request and seals their receipts with the digest of the
commit. -/
def prepareTransactionFunctionBindings (transactionId : CorrelationId) (commit : RuntimeCommit)
    (at_ : Nat) : Except ServiceError PreparedTransactionFunctions := do
  let (commit, seals) ← (catalogue.met request).foldlM
    (fun (prepared : RuntimeCommit × List (String → Except ServiceError FunctionInvocationReceipt))
        entry => do
      let (event, sealed) ← entry.2.2.execute transactionId request.operationSha256 entry.1 at_
        entry.2.1
      return (withEvent prepared.1 event, prepared.2 ++ [sealed])) (commit, [])
  coreContract (commit.validate services.externals.floats)
  let receipts ← seals.mapM fun sealed => sealed (services.externals.digests.commit commit)
  return { commit, receipts }

/-- The same commit again, from the receipts of the functions that ran for it. -/
def applyPreparedTransactionFunctionReceipts (transactionId : CorrelationId)
    (commit : RuntimeCommit) (receipts : List FunctionInvocationReceipt) (at_ : Nat) :
    Except ServiceError RuntimeCommit := do
  let (commit, rest) ← (catalogue.met request).foldlM
    (fun (replayed : RuntimeCommit × List FunctionInvocationReceipt) entry =>
      match replayed.2 with
      | [] => .error (.contract "prepared transaction is missing a function receipt")
      | receipt :: rest => do
          let event ← entry.2.2.replay transactionId request.operationSha256 entry.1 at_ entry.2.1
            receipt
          return (withEvent replayed.1 event, rest)) (commit, receipts)
  ensure (rest = []) (.contract "prepared transaction contains unmatched function receipts")
  coreContract (commit.validate services.externals.floats)
  ensure (∀ receipt ∈ receipts,
    receipt.runtimeCommitSha256 = some (services.externals.digests.commit commit))
    .operationDigestMismatch
  return commit

variable (env : Environment M)

/-- Running functions needs a permission of its own, if there are any. -/
def authorizeTransactionFunctionBindings (session : SessionState) (catalogue : FunctionCatalogue M)
    : Except ServiceError Unit :=
  match catalogue.transactionBindings with
  | [] => .ok ()
  | _ => env.policy session .functionExecute

/-- The receipts of a published commit were published with it. -/
def requireCommittedTransactionFunctionReceipts (receipts : List FunctionInvocationReceipt) :
    Serve Unit := do
  let state ← get
  require (∀ receipt ∈ receipts, state.invocations.find? receipt.invocationId = some receipt)
    .operationDigestMismatch

def isTransactionScope (scope : CanonicalId) : Bool := scope.val = "claims" || scope.val = "data"

def contextKey (context : RequestContext) (message : String) : Serve CorrelationId := do
  checked (context.validate true)
  orFail context.idempotencyKey (.contract message)

def beginTransaction (sessionId token : CorrelationId) (request : BeginTransaction)
    (context : RequestContext) (intentSha256 : Option String) : Serve TransactionLease := do
  let idempotencyKey ← contextKey context "transaction begin requires idempotency"
  checked request.validate
  require (isTransactionScope request.scope) .wrongScope
  ofExcept env.admission
  let session ← loadAuthenticated services sessionId token
  ofExcept (env.policy session .transactionBegin)
  let operationSha256 := services.beginDigest request intentSha256
  let transactionId := services.keyedId "transaction" [sessionId.val, idempotencyKey.val]
  match ← transactionRecord session transactionId with
  | some existing => do
      require (existing.beginIdempotencyKey = idempotencyKey ∧
        existing.beginOperationSha256 = operationSha256) .idempotencyConflict
      return existing.lease
  | none => do
      requireActiveOrExpire services sessionId session env.now
      require (session.openTransactions.length < session.limits.maxOpenTransactions)
        .transactionQuota
      let expires ← checkedTime env.now request.timeoutMs "transaction expiry overflow"
      let scope ← ofExcept (instanceScope services)
      let state ← get
      let read ← stored (Store.readStampWith services.externals.digests state.store scope)
      let lease : TransactionLease :=
        { transactionId, sessionId, scope := request.scope, readCursor := read.commitCursor
          expiresAtUnixMs := min expires session.absoluteExpiresAtUnixMs, state := .open }
      let record : TransactionRecord :=
        { lease, read, beginIdempotencyKey := idempotencyKey
          beginOperationSha256 := operationSha256, prepared := none, commitIntent := none
          commitReceipt := none, abort := none }
      let _ ← replaceSession services sessionId session
        ((session.put transactionId record).touch env.now) env.now
      return lease

/-! ### Commit -/

def requireSameCommit (intent : CommitIntent) (idempotencyKey : CorrelationId)
    (operationSha256 : String) : Serve Unit :=
  require (intent.idempotencyKey = idempotencyKey ∧ intent.operationSha256 = operationSha256)
    .idempotencyConflict

def TransactionRecord.enter (record : TransactionRecord) (state : TransactionState) :
    TransactionRecord :=
  { record with lease := { record.lease with state } }

/-- A commit that has its intent in the session, with the runtime commit if it was
prepared just now. -/
structure PendingCommit where
  session : SessionState
  record : TransactionRecord
  prepared : Option RuntimeCommit

variable (sessionId transactionId : CorrelationId)

/-- A transaction that has run out expires instead of being committed. -/
def expireTransaction (session : SessionState) (record : TransactionRecord) : Serve Unit :=
  if record.lease.expiresAtUnixMs ≤ env.now then do
    let _ ← replaceSession services sessionId session
      ((session.put transactionId (record.enter .expired)).touch env.now) env.now
    fail .transactionExpired
  else pure ()

def persistIntent (sessionId transactionId idempotencyKey : CorrelationId)
    (request : CommitTransaction M) (session : SessionState) (record : TransactionRecord) :
    Serve PendingCommit := do
  requireActiveOrExpire services sessionId session env.now
  expireTransaction services env sessionId transactionId session record
  let runtimeAt := (record.prepared.map (·.runtimeAtUnixMs)).getD env.now
  require (isTransactionScope record.lease.scope) .wrongScope
  let catalogue ← ofExcept env.catalogue
  ofExcept (authorizeTransactionFunctionBindings env session catalogue)
  let commit ← ofExcept (publicRuntimeCommit services request sessionId record.read.commitCursor
    runtimeAt)
  let prepared ← ofExcept (prepareTransactionFunctionBindings services catalogue request
    transactionId commit runtimeAt)
  let intent : CommitIntent :=
    { idempotencyKey, operationSha256 := request.operationSha256, runtimeAtUnixMs := runtimeAt
      runtimeCommitSha256 := services.externals.digests.commit prepared.commit
      functionCatalogueRevision := catalogue.revision, functionReceipts := prepared.receipts }
  let intended := { record with commitIntent := some intent }
  let session ← replaceSession services sessionId session (session.put transactionId intended)
    env.now
  return { session, record := intended, prepared := some prepared.commit }

/-- A commit up to its intent, or the receipt it got before. -/
def acceptCommit (sessionId token transactionId idempotencyKey : CorrelationId)
    (request : CommitTransaction M) : Serve (CommitReceipt ⊕ PendingCommit) := do
  checked (request.validate services.validMutation)
  ofExcept env.admission
  require (services.operationSha256 request.mutations = request.operationSha256)
    .operationDigestMismatch
  let session ← loadAuthenticated services sessionId token
  ofExcept (env.policy session .transactionCommit)
  ofExcept (env.vectors request.mutations)
  let record ← orFail (← transactionRecord session transactionId) .transactionNotFound
  require (∀ prepared ∈ record.prepared, prepared.operationSha256 = request.operationSha256)
    .idempotencyConflict
  if record.lease.state = .committed then do
    let intent ← orFail record.commitIntent .transactionClosed
    requireSameCommit intent idempotencyKey request.operationSha256
    let receipt ← orFail record.commitReceipt .transactionClosed
    return .inl { receipt with idempotentReplay := true }
  else do
    require (record.lease.state = .open) .transactionClosed
    match record.commitIntent with
    | some intent => do
        requireSameCommit intent idempotencyKey request.operationSha256
        return .inr { session, record, prepared := none }
    | none => do
        let pending ← persistIntent services env sessionId transactionId idempotencyKey request
          session record
        return .inr pending

/-- The runtime commit of an intent, prepared just now or again. -/
def intendedCommit (request : CommitTransaction M) (pending : PendingCommit) (intent : CommitIntent)
    :
    Except ServiceError RuntimeCommit :=
  match pending.prepared with
  | some commit => .ok commit
  | none => do
      let catalogue ← env.catalogueRevision intent.functionCatalogueRevision
      authorizeTransactionFunctionBindings env pending.session catalogue
      let commit ← publicRuntimeCommit services request sessionId pending.record.read.commitCursor
        intent.runtimeAtUnixMs
      applyPreparedTransactionFunctionReceipts services catalogue request transactionId commit
        intent.functionReceipts intent.runtimeAtUnixMs

/-- A transaction is one commit at the state its read stamp names. -/
def validateDataTransaction (read : ReadStamp) (commit : RuntimeCommit) :
    Except Kernel.Error Unit := do
  read.validate services.externals.digests
  commit.validate services.externals.floats
  ensure (read.scope = commit.scope)
    (.invalidRuntime "transaction read scope differs from commit scope")
  ensure (read.commitCursor = commit.expectedCursor)
    (.invalidRuntime "transaction expected cursor differs from its read stamp")

/-- The receipts that are published with a commit belong to it and to no other. -/
def encodeFunctionInvocationReceipts (invocations : SortedMap CorrelationId FunctionInvocationReceipt)
    (commitId : String) (receipts : List FunctionInvocationReceipt) :
    Except Store.Error (SortedMap CorrelationId FunctionInvocationReceipt) := do
  ensure (∀ receipt ∈ receipts, receipt.runtimeCommitSha256 = some commitId)
    (.substrate "function receipt is not bound to the semantic commit")
  ensure (receipts.map (·.invocationId)).Nodup
    (.substrate "semantic commit repeats a function invocation receipt")
  ensure (∀ receipt ∈ receipts, ∀ existing ∈ invocations.find? receipt.invocationId,
      existing = receipt)
    (.substrate "function invocation identity is already bound to another receipt")
  return receipts.foldl (fun invocations receipt => invocations.insert receipt.invocationId receipt)
    invocations

/-- The runtime commit, published in one storage transaction with the receipts of its
functions. The outer result is a value: what the store reports need not be what it
did. -/
def publishCommit (read : ReadStamp) (commit : RuntimeCommit)
    (receipts : List FunctionInvocationReceipt) :
    Serve (Except Store.Error RuntimeCommitOutcome) := do
  let state ← get
  let prepared := do
    let (outcome, writes) ← Store.prepareSemanticCommit services.externals state.store commit
      (some read) none
    let invocations ← encodeFunctionInvocationReceipts state.invocations outcome.commitId receipts
    return (outcome, { state with store := state.store.applyAll writes, invocations })
  match prepared with
  | .error error => return .error error
  | .ok (outcome, published) =>
    match env.fate with
    | .accepted => do
        modify fun _ => published
        return .ok outcome
    | .refused error => return .error error
    | .obscured error => do
        modify fun _ => published
        return .error error

/-- The errors that are raised before anything is published. -/
def Rejects : Store.Error → Bool
  | .kernel _ | .writeLimit _ | .runtimeConflict _ _ | .transactionConflict
  | .danglingRuntimeReference _ | .runtimeTargetNotFound _ | .runtimeSchemaMissing _
  | .runtimeSchemaConflict _ _ | .indexConstraint _ => true
  | _ => false

/-- A conflict at an advanced cursor says that the snapshot of the transaction is
stale. -/
def classifyRejectedCommit (error : Store.Error) : ServiceError :=
  match error with
  | .runtimeConflict expected actual =>
    if expected < actual then .transactionSnapshotStale expected actual
    else .ofStore error
  | error => .ofStore error

/-- The end of a commit that the store did not take: an intent that cannot be published
any more is dropped. -/
def rejectCommit (pending : PendingCommit) (error : Store.Error) : Serve RuntimeCommitOutcome := do
  if Rejects error then
    let _ ← replaceSession services sessionId pending.session
      (pending.session.put transactionId { pending.record with commitIntent := none }) env.now
    fail (classifyRejectedCommit error)
  else fail (classifyRejectedCommit error)

/-- The second step of a commit: the runtime commit, found or published. -/
def reconcile (pending : PendingCommit) (intent : CommitIntent) (commit : RuntimeCommit) :
    Serve (RuntimeCommitOutcome × Bool) := do
  let state ← get
  match state.store.commits.find? intent.runtimeCommitSha256 with
  | some outcome => do
      requireCommittedTransactionFunctionReceipts intent.functionReceipts
      return (outcome, true)
  | none => do
      ofExcept (coreContract (validateDataTransaction services pending.record.read commit))
      match ← publishCommit services env pending.record.read commit intent.functionReceipts with
      | .ok outcome => return (outcome, false)
      | .error error => do
          let after ← get
          match after.store.commits.find? intent.runtimeCommitSha256 with
          | some outcome => do
              requireCommittedTransactionFunctionReceipts intent.functionReceipts
              return (outcome, true)
          | none => do
              let outcome ← rejectCommit services env sessionId transactionId pending error
              return (outcome, false)

/-- After a commit a session lives on or, if it has run out, expires. -/
def SessionState.touchOrExpire (session : SessionState) (now : Nat) : SessionState :=
  if session.status = .active ∧ now < session.idleExpiresAtUnixMs ∧
      now < session.absoluteExpiresAtUnixMs then
    session.touch now
  else session.expire

/-- The process stops here, if it does. -/
def boundary (point : Boundary) : Serve Unit :=
  require (env.crash ≠ some point) .crashed

def settleCommit (request : CommitTransaction M) (pending : PendingCommit) :
    Serve CommitReceipt := do
  require (isTransactionScope pending.record.lease.scope) .wrongScope
  let intent ← orFail pending.record.commitIntent .transactionClosed
  let commit ← ofExcept (intendedCommit services env sessionId transactionId request pending intent)
  require (services.externals.digests.commit commit = intent.runtimeCommitSha256)
    .operationDigestMismatch
  let (outcome, idempotentReplay) ← reconcile services env sessionId transactionId pending intent
    commit
  boundary env .runtimeCommitted
  let receipt := runtimeReceipt transactionId request.operationSha256 outcome idempotentReplay
  let committed := { pending.record.enter .committed with commitReceipt := some receipt }
  let _ ← replaceSession services sessionId pending.session
    ((pending.session.put transactionId committed).touchOrExpire env.now) env.now
  return receipt

def commitTransaction (sessionId token transactionId idempotencyKey : CorrelationId)
    (request : CommitTransaction M) : Serve CommitReceipt := do
  match ← acceptCommit services env sessionId token transactionId idempotencyKey request with
  | .inl receipt => return receipt
  | .inr pending => do
      boundary env .intentPersisted
      settleCommit services env sessionId transactionId request pending

def abortTransaction (sessionId token transactionId : CorrelationId) (context : RequestContext) :
    Serve TransactionLease := do
  let idempotencyKey ← contextKey context "transaction abort requires idempotency"
  ofExcept env.admission
  let session ← authorize services env sessionId token .transactionAbort
  let record ← orFail (← transactionRecord session transactionId) .transactionNotFound
  match record.lease.state with
  | .open => do
      require (record.commitIntent = none) .commitInProgress
      if record.lease.expiresAtUnixMs ≤ env.now then
        let _ ← replaceSession services sessionId session
          ((session.put transactionId (record.enter .expired)).touch env.now) env.now
        fail .transactionExpired
      else do
        let abort : AbortRecord := { idempotencyKey, operationSha256 := services.abortDigest }
        let aborted := { record.enter .aborted with abort := some abort }
        let _ ← replaceSession services sessionId session
          ((session.put transactionId aborted).touch env.now) env.now
        return aborted.lease
  | .aborted => do
      let accepted ← orFail record.abort .transactionClosed
      require (accepted.idempotencyKey = idempotencyKey ∧
        accepted.operationSha256 = services.abortDigest) .idempotencyConflict
      return record.lease
  | .expired => fail .transactionExpired
  | .committed => fail .transactionClosed

def previewTransaction (sessionId token transactionId : CorrelationId)
    (request : PreviewTransaction M) (context : RequestContext) : Serve TransactionPreview := do
  let idempotencyKey ← contextKey context "transaction prepare requires idempotency"
  checked (request.validate services.validMutation)
  ofExcept env.admission
  let session ← authorize services env sessionId token .transactionPreview
  let record ← orFail (← transactionRecord session transactionId) .transactionNotFound
  require (record.lease.state = .open) .transactionClosed
  require (record.commitIntent = none) .commitInProgress
  if record.lease.expiresAtUnixMs ≤ env.now then
    let _ ← replaceSession services sessionId session
      (session.put transactionId (record.enter .expired)) env.now
    fail .transactionExpired
  else do
    require (isTransactionScope record.lease.scope) .wrongScope
    let operationSha256 := services.operationSha256 request.mutations
    require (∀ prepared ∈ record.prepared, prepared.idempotencyKey = idempotencyKey ∧
      prepared.operationSha256 = operationSha256) .idempotencyConflict
    let runtimeAt := (record.prepared.map (·.runtimeAtUnixMs)).getD env.now
    let lowered : CommitTransaction M := { operationSha256, mutations := request.mutations }
    ofExcept (env.vectors lowered.mutations)
    let commit ← ofExcept (publicRuntimeCommit services lowered sessionId record.read.commitCursor
      runtimeAt)
    ofExcept (coreContract (validateDataTransaction services record.read commit))
    ofExcept (env.snapshot commit)
    let preview : TransactionPreview :=
      { transactionId, readCursor := record.lease.readCursor, operationSha256
        idempotentReplay := record.prepared.isSome }
    match record.prepared with
    | some _ => return preview
    | none => do
        let prepared : PreparedRecord := { idempotencyKey, operationSha256, runtimeAtUnixMs := runtimeAt }
        let _ ← replaceSession services sessionId session
          ((session.put transactionId { record with prepared := some prepared }).touch env.now)
          env.now
        return preview

inductive Request (M : Type)
  | create (principalId : Option CanonicalId) (principalCredentialRevision : Option Nat)
      (request : CreateSession) (idempotencyKey : CorrelationId)
  | renew (sessionId token idempotencyKey : CorrelationId)
  | close (sessionId token idempotencyKey : CorrelationId)
  | begin_ (sessionId token : CorrelationId) (request : BeginTransaction) (context : RequestContext)
      (intentSha256 : Option String)
  | preview (sessionId token transactionId : CorrelationId) (request : PreviewTransaction M)
      (context : RequestContext)
  | commit (sessionId token transactionId idempotencyKey : CorrelationId)
      (request : CommitTransaction M)
  | abort (sessionId token transactionId : CorrelationId) (context : RequestContext)

inductive Response
  | session (lease : SessionLease)
  | closed (termination : SessionTermination)
  | transaction (lease : TransactionLease)
  | previewed (preview : TransactionPreview)
  | receipt (receipt : CommitReceipt)
  deriving DecidableEq

def serve : Request M → Serve Response
  | .create principalId revision request key => do
      return .session (← createSessionBound services env principalId revision request key)
  | .renew sessionId token key => do
      return .session (← renewSession services env sessionId token key)
  | .close sessionId token key => do
      return .closed (← closeSession services env sessionId token key)
  | .begin_ sessionId token request context intentSha256 => do
      return .transaction
        (← beginTransaction services env sessionId token request context intentSha256)
  | .preview sessionId token transactionId request context => do
      return .previewed
        (← previewTransaction services env sessionId token transactionId request context)
  | .commit sessionId token transactionId key request => do
      return .receipt (← commitTransaction services env sessionId token transactionId key request)
  | .abort sessionId token transactionId context => do
      return .transaction (← abortTransaction services env sessionId token transactionId context)

end Rrflow.Engine

import Rrflow.Lib.Effect
import Rrflow.Contract.Transaction
import Rrflow.Store.Operations

/-!
Sessions and the transactions they hold.

A session is one control record. It is loaded, changed and written back if the stored
record is still the one that was loaded; each write moves at most one transaction that
has ended out of the session, under a key of its own.

Requests run one at a time behind the transaction gate. Whatever the engine asks of
its surroundings while it serves a request (the clock, admission, the security policy,
the catalogues of vectors and functions) is in the environment of the request, which
also says where the process stops.
-/

namespace Rrflow.Engine

open Kernel Contract Checks Eff

inductive ServiceError
  | contract (message : String)
  | storage (error : Store.Error)
  | storageConflict (error : Store.Error)
  | transactionSnapshotStale (expected actual : Nat)
  | storageAdmission (error : Store.Error)
  | configurationLimit (error : Store.Error)
  | query (error : Store.Error)
  | sessionNotFound
  | unauthenticated
  | permissionDenied
  | sessionExpired
  | transactionNotFound
  | transactionExpired
  | transactionClosed
  | transactionQuota
  | renewalQuota
  | idempotencyConflict
  | commitInProgress
  | wrongScope
  | operationDigestMismatch
  | function (message : String)
  | functionCatalogueRevisionNotFound
  | vector (message : String)
  | changefeed (message : String)
  | subscription (message : String)
  | subscriptionNotFound
  | subscriptionExpired (requested retentionFloor head : Nat)
  | subscriptionLeaseExpired
  | subscriptionClosed
  | subscriptionConnectionReplaced
  | subscriptionBackpressure
  | admissionCancelled
  | deadlineExceeded
  /-- The process stopped; there is no answer. -/
  | crashed
  deriving DecidableEq

/-- How errors of the store reach a client. -/
def ServiceError.ofStore (error : Store.Error) : ServiceError :=
  match error with
  | .writeLimit _ => .storageAdmission error
  | .runtimeReadBudgetExceeded _ => .configurationLimit error
  | .indexConstraint _ => .query error
  | .runtimeConflict _ _ | .runtimeSchemaConflict _ _ | .idempotencyConflict _
  | .controlConflict _ | .readStampMismatch _ => .storageConflict error
  | _ => .storage error

/-! ### Stored records -/

/-- What a function left behind when it ran for a transaction: its identity, the
commit it is sealed for and the text of the rest. -/
structure FunctionInvocationReceipt where
  invocationId : CorrelationId
  runtimeCommitSha256 : Option String
  body : String
  deriving DecidableEq

structure PreparedRecord where
  idempotencyKey : CorrelationId
  operationSha256 : String
  runtimeAtUnixMs : Nat
  deriving DecidableEq

structure CommitIntent where
  idempotencyKey : CorrelationId
  operationSha256 : String
  runtimeAtUnixMs : Nat
  runtimeCommitSha256 : String
  functionCatalogueRevision : Nat
  functionReceipts : List FunctionInvocationReceipt
  deriving DecidableEq

structure AbortRecord where
  idempotencyKey : CorrelationId
  operationSha256 : String
  deriving DecidableEq

structure TransactionRecord where
  lease : TransactionLease
  read : ReadStamp
  beginIdempotencyKey : CorrelationId
  beginOperationSha256 : String
  prepared : Option PreparedRecord
  commitIntent : Option CommitIntent
  commitReceipt : Option CommitReceipt
  abort : Option AbortRecord
  deriving DecidableEq

inductive SessionStatus
  | active | expired | closed
  deriving DecidableEq, Repr

structure RenewalRecord where
  operationSha256 : String
  previousTokenSha256 : String
  tokenGeneration : Nat
  idleExpiresAtUnixMs : Nat
  deriving DecidableEq

structure ClosureRecord where
  idempotencyKey : CorrelationId
  operationSha256 : String
  previousTokenSha256 : String
  endedAtUnixMs : Nat
  affectedOpenTransactions : Nat
  deriving DecidableEq

structure SessionState where
  formatVersion : Nat
  terminalTransactionFormat : Nat
  sessionId : CorrelationId
  principalId : Option CanonicalId
  principalCredentialRevision : Option Nat
  status : SessionStatus
  issuedAtUnixMs : Nat
  idleExpiresAtUnixMs : Nat
  absoluteExpiresAtUnixMs : Nat
  limits : SessionLimits
  creationIdempotencyKey : CorrelationId
  creationOperationSha256 : String
  creationIdleExpiresAtUnixMs : Nat
  tokenSha256 : String
  tokenGeneration : Nat
  renewals : SortedMap CorrelationId RenewalRecord
  closure : Option ClosureRecord
  transactions : SortedMap CorrelationId TransactionRecord
  deriving DecidableEq

structure TerminalTransaction where
  formatVersion : Nat
  record : TransactionRecord
  deriving DecidableEq

abbrev TransactionKey := CorrelationId ×ₗ CorrelationId

def transactionKey (sessionId transactionId : CorrelationId) : TransactionKey :=
  toLex (sessionId, transactionId)

structure State where
  store : Store.State
  sessions : SortedMap CorrelationId SessionState
  terminals : SortedMap TransactionKey TerminalTransaction
  invocations : SortedMap CorrelationId FunctionInvocationReceipt

abbrev Serve := Eff State ServiceError

/-! ### Surroundings -/

/-- A function bound to the mutations of transactions: it runs for a mutation at a
place of the request and either only agrees or adds an event to the commit. Its
receipt is sealed with the digest of that commit, and replaying the receipt gives the
event again. -/
structure FunctionBinding (M : Type) where
  matches_ : M → Bool
  execute : (transactionId : CorrelationId) → (operationSha256 : String) → (index at_ : Nat) → M →
    Except ServiceError (Option RuntimeEvent × (String → Except ServiceError FunctionInvocationReceipt))
  replay : (transactionId : CorrelationId) → (operationSha256 : String) → (index at_ : Nat) → M →
    FunctionInvocationReceipt → Except ServiceError (Option RuntimeEvent)

structure FunctionCatalogue (M : Type) where
  revision : Nat
  transactionBindings : List (FunctionBinding M)

/-- What becomes of a runtime commit that was prepared: it is published, it is not and
an error is reported, or it is and an error is reported all the same. -/
inductive Fate
  | accepted
  | refused (error : Store.Error)
  | obscured (error : Store.Error)
  deriving DecidableEq

/-- Where a process can stop in the middle of a commit. -/
inductive Boundary
  | intentPersisted | runtimeCommitted
  deriving DecidableEq

/-- The surroundings of one request. -/
structure Environment (M : Type) where
  now : Nat
  admission : Except ServiceError Unit
  policy : SessionState → SecurityAction → Except ServiceError Unit
  vectors : List M → Except ServiceError Unit
  catalogue : Except ServiceError (FunctionCatalogue M)
  catalogueRevision : Nat → Except ServiceError (FunctionCatalogue M)
  snapshot : RuntimeCommit → Except ServiceError Unit
  fate : Fate
  crash : Option Boundary

/-- What an engine takes from outside: the store's own externals, keyed identities,
digests, the meaning of public mutations and the limits of the control store. -/
structure Services (M : Type) where
  externals : Store.Externals
  «instance» : CanonicalId
  keyedId : (start : String) → (parts : List String) → CorrelationId
  sha256Hex : String → String
  createDigest : CreateSession → String
  renewDigest : String
  closeDigest : String
  beginDigest : BeginTransaction → (intentSha256 : Option String) → String
  abortDigest : String
  operationSha256 : List M → String
  validMutation : M → Except String Unit
  runtimeMutation : M → CorrelationId → Except ServiceError RuntimeMutation
  admitsControl : SessionState → Option TransactionRecord → Except Store.Error Unit

variable {M : Type}

def checked {α : Type} (x : Except String α) : Serve α := ofExcept (x.mapError .contract)

def stored {α : Type} (x : Except Store.Error α) : Serve α := ofExcept (x.mapError .ofStore)

def require (c : Prop) [Decidable c] (error : ServiceError) : Serve Unit :=
  if c then pure () else fail error

/-- A result that has to be there. -/
def orFail {α : Type} (x : Option α) (error : ServiceError) : Serve α :=
  match x with
  | some a => pure a
  | none => fail error

/-! ### Loading and replacing a session -/

def sessionStateFormat : Nat := 3

def terminalTransactionFormat : Nat := 1

variable (session : SessionState)

def decodeSession : Serve SessionState := do
  require (session.formatVersion = sessionStateFormat)
    (.contract ("unsupported session-state format " ++ toString session.formatVersion ++
      "; expected 3"))
  require (session.terminalTransactionFormat = terminalTransactionFormat)
    (.contract "unsupported session terminal-transaction format")
  return session

def loadSession (sessionId : CorrelationId) : Serve SessionState := do
  let state ← get
  let session ← orFail (state.sessions.find? sessionId) .sessionNotFound
  decodeSession session

/-- The record of a transaction, in the session or where it went from there. -/
def transactionRecord (transactionId : CorrelationId) : Serve (Option TransactionRecord) := do
  let state ← get
  match session.transactions.find? transactionId with
  | some record => return some record
  | none =>
    match state.terminals.find? (transactionKey session.sessionId transactionId) with
    | none => return none
    | some terminal => do
        require (terminal.formatVersion = terminalTransactionFormat ∧
            terminal.record.lease.sessionId = session.sessionId ∧
            terminal.record.lease.transactionId = transactionId ∧
            terminal.record.lease.state ≠ .open)
          (.contract "invalid terminal transaction record")
        return some terminal.record

namespace SessionState

/-- The first transaction that is no longer open. -/
def terminal : Option (CorrelationId × TransactionRecord) :=
  session.transactions.toList.find? fun entry => entry.2.lease.state ≠ .open

def retained : SessionState :=
  match session.terminal with
  | some (transactionId, _) =>
    { session with transactions := session.transactions.erase transactionId }
  | none => session

def put (transactionId : CorrelationId) (record : TransactionRecord) : SessionState :=
  { session with transactions := session.transactions.insert transactionId record }

/-- Use moves the idle deadline, up to the absolute one. -/
def touch (now : Nat) : SessionState :=
  { session with
    idleExpiresAtUnixMs :=
      min (min (now + session.limits.idleTimeoutMs) Store.u64Max) session.absoluteExpiresAtUnixMs }

end SessionState

/-- An open transaction expires unless a commit of it may be under way. -/
def TransactionRecord.expire (record : TransactionRecord) : TransactionRecord :=
  if record.lease.state = .open ∧ record.commitIntent = none then
    { record with lease := { record.lease with state := .expired } }
  else record

def SessionState.expire : SessionState :=
  { session with
    status := .expired, transactions := session.transactions.mapValues TransactionRecord.expire }

variable (services : Services M)

variable (sessionId : CorrelationId)

def sessionKey : String :=
  "server/state/" ++ services.instance.val ++ "/session/" ++ sessionId.val

def terminalTransactionKey (sessionId transactionId : CorrelationId) : String :=
  "server/state/" ++ services.instance.val ++ "/terminal-transaction/" ++
    services.sha256Hex ("[\"" ++ sessionId.val ++ "\",\"" ++ transactionId.val ++ "\"]")

/-- The state with a session replaced and the transaction that leaves it kept under
its own key. -/
def State.replace (state : State) (sessionId : CorrelationId) (session : SessionState) : State :=
  { state with
    sessions := state.sessions.insert sessionId session.retained
    terminals :=
      match session.terminal with
      | some (transactionId, record) =>
        state.terminals.insert (transactionKey sessionId transactionId)
          ⟨terminalTransactionFormat, record⟩
      | none => state.terminals }

/-- Replaces a session that is still as expected, in one batch with the transaction
that leaves it, for which there must be no record yet. -/
def replaceSession (expected session : SessionState) (now : Nat) : Serve SessionState := do
  let state ← get
  stored (services.admitsControl session.retained (session.terminal.map Prod.snd))
  stored (ensure (now ≠ 0) (.substrate "control transition time must be non-zero"))
  match session.terminal with
  | some (transactionId, _) =>
    stored (ensure (state.terminals.find? (transactionKey sessionId transactionId) = none)
      (.controlConflict (terminalTransactionKey services sessionId transactionId)))
  | none => pure ()
  stored (ensure (state.sessions.find? sessionId = some expected)
    (.controlConflict (sessionKey services sessionId)))
  modify fun state => state.replace sessionId session
  return session.retained

def loadAuthenticated (sessionId token : CorrelationId) : Serve SessionState := do
  let session ← loadSession sessionId
  require (session.tokenSha256 = services.sha256Hex token.val) .unauthenticated
  return session

/-- A session that has run out expires, with its open transactions. -/
def requireActiveOrExpire (session : SessionState) (now : Nat) : Serve Unit := do
  require (session.status = .active) .sessionExpired
  if now < session.idleExpiresAtUnixMs ∧ now < session.absoluteExpiresAtUnixMs then pure ()
  else do
    let _ ← replaceSession services sessionId session session.expire now
    fail .sessionExpired

variable (env : Environment M)

/-- A live session of a client that may do what it asks for. -/
def authorize (sessionId token : CorrelationId) (action : SecurityAction) : Serve SessionState := do
  let session ← loadAuthenticated services sessionId token
  requireActiveOrExpire services sessionId session env.now
  ofExcept (env.policy session action)
  return session

/-! ### Requests of sessions -/

def sessionToken (tokenGeneration : Nat) : CorrelationId :=
  services.keyedId "token" [sessionId.val, toString tokenGeneration]

def leaseFromState (session : SessionState) (token : CorrelationId) (idleExpiresAtUnixMs : Nat) :
    SessionLease :=
  { sessionId := session.sessionId, token, issuedAtUnixMs := session.issuedAtUnixMs
    idleExpiresAtUnixMs, absoluteExpiresAtUnixMs := session.absoluteExpiresAtUnixMs
    limits := session.limits }

def sessionLease (session : SessionState) (tokenGeneration idleExpiresAtUnixMs : Nat) :
    SessionLease :=
  leaseFromState session (sessionToken services session.sessionId tokenGeneration)
    idleExpiresAtUnixMs

def replayCreatedSession (session : SessionState) (idempotencyKey : CorrelationId)
    (operationSha256 : String) : Serve SessionLease := do
  require (session.creationIdempotencyKey = idempotencyKey ∧
    session.creationOperationSha256 = operationSha256) .idempotencyConflict
  return sessionLease services session 0 session.creationIdleExpiresAtUnixMs

/-- The sum of two times, if it is a time. -/
def checkedTime (a b : Nat) (message : String) : Serve Nat := do
  require (a + b ≤ Store.u64Max) (.contract message)
  return a + b

def createSessionBound (principalId : Option CanonicalId) (principalCredentialRevision : Option Nat)
    (request : CreateSession) (idempotencyKey : CorrelationId) : Serve SessionLease := do
  checked request.limits.validate
  let operationSha256 := services.createDigest request
  let sessionId := services.keyedId "session" [idempotencyKey.val]
  let state ← get
  match state.sessions.find? sessionId with
  | some session => do
      let session ← decodeSession session
      require (session.principalId = principalId ∧
        session.principalCredentialRevision = principalCredentialRevision) .idempotencyConflict
      replayCreatedSession services session idempotencyKey operationSha256
  | none => do
      let idleExpires ← checkedTime env.now request.limits.idleTimeoutMs
        "session idle expiry overflow"
      let absoluteExpires ← checkedTime env.now request.limits.absoluteTimeoutMs
        "session absolute expiry overflow"
      let token := sessionToken services sessionId 0
      let session : SessionState :=
        { formatVersion := sessionStateFormat, terminalTransactionFormat, sessionId, principalId
          principalCredentialRevision, status := .active, issuedAtUnixMs := env.now
          idleExpiresAtUnixMs := idleExpires, absoluteExpiresAtUnixMs := absoluteExpires
          limits := request.limits, creationIdempotencyKey := idempotencyKey
          creationOperationSha256 := operationSha256, creationIdleExpiresAtUnixMs := idleExpires
          tokenSha256 := services.sha256Hex token.val, tokenGeneration := 0, renewals := .empty
          closure := none, transactions := .empty }
      stored (services.admitsControl session none)
      stored (ensure (env.now ≠ 0) (.substrate "control transition time must be non-zero"))
      modify fun state => { state with sessions := state.sessions.insert sessionId session }
      return leaseFromState session token idleExpires

def maxSessionRenewals : Nat := 64

def renewSession (sessionId token idempotencyKey : CorrelationId) : Serve SessionLease := do
  ofExcept env.admission
  let session ← loadSession sessionId
  ofExcept (env.policy session .sessionRenew)
  let presentedSha256 := services.sha256Hex token.val
  match session.renewals.find? idempotencyKey with
  | some accepted => do
      require (accepted.operationSha256 = services.renewDigest ∧
        accepted.previousTokenSha256 = presentedSha256) .idempotencyConflict
      return sessionLease services session accepted.tokenGeneration accepted.idleExpiresAtUnixMs
  | none => do
      require (session.renewals.toList.length < maxSessionRenewals) .renewalQuota
      require (session.tokenSha256 = presentedSha256) .unauthenticated
      requireActiveOrExpire services sessionId session env.now
      let tokenGeneration ← checkedTime session.tokenGeneration 1
        "session token generation overflow"
      let fresh := sessionToken services sessionId tokenGeneration
      let touched := session.touch env.now
      let renewal : RenewalRecord :=
        { operationSha256 := services.renewDigest, previousTokenSha256 := session.tokenSha256
          tokenGeneration, idleExpiresAtUnixMs := touched.idleExpiresAtUnixMs }
      let renewed : SessionState :=
        { touched with
          tokenGeneration, tokenSha256 := services.sha256Hex fresh.val
          renewals := touched.renewals.insert idempotencyKey renewal }
      let _ ← replaceSession services sessionId session renewed env.now
      return leaseFromState renewed fresh renewed.idleExpiresAtUnixMs

def termination (closure : ClosureRecord) (idempotentReplay : Bool) : SessionTermination :=
  { sessionId, endedAtUnixMs := closure.endedAtUnixMs
    affectedOpenTransactions := closure.affectedOpenTransactions, idempotentReplay }

/-- A transaction that is open when its session is closed is aborted. -/
def TransactionRecord.close (record : TransactionRecord) : TransactionRecord :=
  if record.lease.state = .open then
    { record with lease := { record.lease with state := .aborted } }
  else record

def SessionState.openTransactions (session : SessionState) : List TransactionRecord :=
  session.transactions.values.filter fun record => record.lease.state = .open

def closeSession (sessionId token idempotencyKey : CorrelationId) : Serve SessionTermination := do
  ofExcept env.admission
  let session ← loadSession sessionId
  ofExcept (env.policy session .sessionClose)
  let presentedSha256 := services.sha256Hex token.val
  match session.closure with
  | some closure => do
      require (closure.idempotencyKey = idempotencyKey ∧
        closure.operationSha256 = services.closeDigest ∧
        closure.previousTokenSha256 = presentedSha256) .idempotencyConflict
      return termination session.sessionId closure true
  | none => do
      require (session.tokenSha256 = presentedSha256) .unauthenticated
      requireActiveOrExpire services sessionId session env.now
      require (∀ record ∈ session.openTransactions, record.commitIntent = none) .commitInProgress
      let closure : ClosureRecord :=
        { idempotencyKey, operationSha256 := services.closeDigest
          previousTokenSha256 := presentedSha256, endedAtUnixMs := env.now
          affectedOpenTransactions := min session.openTransactions.length (2 ^ 16 - 1) }
      let closed : SessionState :=
        { session with
          status := .closed, closure := some closure
          transactions := session.transactions.mapValues TransactionRecord.close }
      let _ ← replaceSession services sessionId session closed env.now
      return termination sessionId closure false

end Rrflow.Engine

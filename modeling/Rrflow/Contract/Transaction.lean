import Rrflow.Contract.Resource
import Rrflow.Kernel.Evidence

/-!
The requests of sessions and transactions as clients send them.

Public mutations are a type of their own; what they mean for the runtime is said
where they are lowered. Times are milliseconds since the epoch.
-/

namespace Rrflow.Contract

open Checks

def isCorrelationByte (c : Char) : Bool :=
  c.isAlphanum || c == '-' || c == '_' || c == '.' || c == ':'

def isCorrelationId (value : String) : Bool :=
  value ≠ "" && value.utf8ByteSize ≤ maxIdBytes && value.toList.all isCorrelationByte

/-- What clients choose or are given as identities, keys and tokens. -/
abbrev CorrelationId := { value : String // isCorrelationId value = true }

structure RequestContext where
  requestId : CorrelationId
  operationId : CorrelationId
  idempotencyKey : Option CorrelationId
  deadlineUnixMs : Option Nat
  deriving DecidableEq

def RequestContext.validate (context : RequestContext) (mutation : Bool) : Except String Unit := do
  ensure (¬(mutation ∧ context.idempotencyKey = none))
    "mutating requests require an idempotency key"
  ensure (context.deadlineUnixMs ≠ some 0)
    "deadline_unix_ms must be greater than zero when present"

def minLeaseMs : Nat := 1000

def maxLeaseMs : Nat := 3600000

structure SessionLimits where
  idleTimeoutMs : Nat
  absoluteTimeoutMs : Nat
  maxOpenTransactions : Nat
  deriving DecidableEq, Repr

def SessionLimits.validate (limits : SessionLimits) : Except String Unit := do
  ensure (minLeaseMs ≤ limits.idleTimeoutMs ∧ limits.idleTimeoutMs ≤ maxLeaseMs ∧
      minLeaseMs ≤ limits.absoluteTimeoutMs ∧ limits.absoluteTimeoutMs ≤ maxLeaseMs ∧
      limits.idleTimeoutMs ≤ limits.absoluteTimeoutMs)
    "session timeouts are outside bounds or idle exceeds absolute"
  ensure (limits.maxOpenTransactions ≠ 0 ∧ limits.maxOpenTransactions ≤ 256)
    "max_open_transactions must be in 1..=256"

structure CreateSession where
  limits : SessionLimits
  deriving DecidableEq, Repr

structure SessionLease where
  sessionId : CorrelationId
  token : CorrelationId
  issuedAtUnixMs : Nat
  idleExpiresAtUnixMs : Nat
  absoluteExpiresAtUnixMs : Nat
  limits : SessionLimits
  deriving DecidableEq

/-- The end of a session at the request of its client. -/
structure SessionTermination where
  sessionId : CorrelationId
  endedAtUnixMs : Nat
  affectedOpenTransactions : Nat
  idempotentReplay : Bool
  deriving DecidableEq

structure BeginTransaction where
  scope : CanonicalId
  timeoutMs : Nat
  deriving DecidableEq

def BeginTransaction.validate (request : BeginTransaction) : Except String Unit :=
  ensure (minLeaseMs ≤ request.timeoutMs ∧ request.timeoutMs ≤ maxLeaseMs)
    "transaction timeout must be in 1000..=3600000"

inductive TransactionState
  | «open» | committed | aborted | expired
  deriving DecidableEq, Repr

structure TransactionLease where
  transactionId : CorrelationId
  sessionId : CorrelationId
  scope : CanonicalId
  readCursor : Nat
  expiresAtUnixMs : Nat
  state : TransactionState
  deriving DecidableEq

def maxTransactionClaims : Nat := 4096

def maxDataSnapshotStorageKeys : Nat := 1000000

def validateMutations {M : Type} (validMutation : M → Except String Unit) (mutations : List M) :
    Except String Unit := do
  ensure (mutations ≠ [] ∧ mutations.length ≤ maxTransactionClaims)
    "transaction mutation count must be in 1..=4096"
  mutations.forM validMutation

structure CommitTransaction (M : Type) where
  operationSha256 : String
  mutations : List M

/-- A digest is 64 lowercase hexadecimal digits. -/
def isSha256 (value : String) : Bool :=
  value.toList.length = 64 && value.toList.all fun c => c.isDigit || ('a' ≤ c && c ≤ 'f')

def CommitTransaction.validate {M : Type} (validMutation : M → Except String Unit)
    (request : CommitTransaction M) : Except String Unit := do
  ensure (isSha256 request.operationSha256) "operation_sha256 must be lowercase SHA-256 hex"
  validateMutations validMutation request.mutations

structure PreviewTransaction (M : Type) where
  mutations : List M
  validAt : Option Nat
  maxStorageKeys : Nat

def PreviewTransaction.validate {M : Type} (validMutation : M → Except String Unit)
    (request : PreviewTransaction M) : Except String Unit := do
  validateMutations validMutation request.mutations
  ensure (request.validAt ≠ some 0 ∧ request.maxStorageKeys ≠ 0 ∧
      request.maxStorageKeys ≤ maxDataSnapshotStorageKeys)
    ("transaction preview requires a non-zero valid_at when present and max_storage_keys in " ++
      "1..=1000000")

/-- The answer to a preview, without the prospective snapshot and the mutations. -/
structure TransactionPreview where
  transactionId : CorrelationId
  readCursor : Nat
  operationSha256 : String
  idempotentReplay : Bool
  deriving DecidableEq

structure CommitReceipt where
  transactionId : CorrelationId
  operationSha256 : String
  firstClaimSequence : Nat
  lastClaimSequence : Nat
  mutationCount : Nat
  runtimeCommitSha256 : Option String
  firstRuntimeCursor : Option Nat
  lastRuntimeCursor : Option Nat
  claimMutationCount : Option Nat
  idempotentReplay : Bool
  deriving DecidableEq

end Rrflow.Contract

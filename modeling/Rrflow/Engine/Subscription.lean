import Rrflow.Engine.Session
import Rrflow.Lib.Interleave
import Rrflow.Store.ChangeFeed

/-!
Durable subscriptions.

A subscription is one control record. A client connects to it, which begins a new connection
generation, asks for deliveries, each of which is recorded as pending, and acknowledges them.
Calls read the record, the head of the log and a page of it at different times, and replace
the record only if it is still the one that was read. So every access to storage is an
action of its own here, and any other call may come between two of them.
-/

namespace Rrflow.Engine

open Kernel Contract Checks Interleave

/-! ### The contract -/

def maxChangefeedPage : Nat := 4096

def maxSubscriptionInFlight : Nat := 64

def maxSubscriptionRetentionCursors : Nat := 10000000

def minSubscriptionHeartbeatMs : Nat := 100

def maxSubscriptionHeartbeatMs : Nat := 30000

def resultIdentityVersion : Nat := 2

structure ReadChangefeed where
  scope : String
  afterCursor : Nat
  limit : Nat

def ReadChangefeed.validate (request : ReadChangefeed) : Except String Unit := do
  ensure (request.scope ≠ "" ∧ request.scope.utf8ByteSize ≤ maxIdBytes ∧
      Char.ofNat 0 ∉ request.scope.toList)
    "changefeed scope is invalid"
  ensure (request.limit ≠ 0 ∧ request.limit ≤ maxChangefeedPage)
    "changefeed limit must be in 1..=4096"

structure ChangefeedPage (P : Type) where
  requestedAfterCursor : Nat
  throughCursor : Nat
  headCursor : Nat
  hasMore : Bool
  changes : List P

/-- The rows that a live query gained, changed and lost, up to a cursor. -/
structure LiveQueryDelta (D : Type) where
  throughCursor : Nat
  rows : D

/-- What a subscription follows. -/
inductive SubscriptionStream (L : Type)
  | changefeed (scope : String)
  | liveQuery (scope : String) (query : L) (resultIdentityVersion : Option Nat)
  deriving DecidableEq

structure OpenSubscription (L : Type) where
  subscriptionId : CorrelationId
  stream : SubscriptionStream L
  afterCursor : Nat
  batchSize : Nat
  maxInFlight : Nat
  retentionCursorWindow : Nat
  leaseMs : Nat
  heartbeatIntervalMs : Nat

structure SubscriptionResume where
  streamSha256 : String
  connectionGeneration : Nat
  acknowledgedCursor : Nat

def SubscriptionResume.validate (resume : SubscriptionResume) : Except String Unit :=
  ensure (isSha256 resume.streamSha256)
    "subscription resume stream_sha256 must be lowercase SHA-256 hex"

structure SubscriptionAcknowledgement where
  connectionGeneration : Nat
  deliverySequence : Nat
  throughCursor : Nat

def SubscriptionAcknowledgement.validate (acknowledgement : SubscriptionAcknowledgement) :
    Except String Unit :=
  ensure (acknowledgement.connectionGeneration ≠ 0 ∧ acknowledgement.deliverySequence ≠ 0)
    "subscription acknowledgement generation and sequence must be positive"

structure SubscriptionLeaseCoordinate where
  connectionGeneration : Nat
  acknowledgedCursor : Nat

def SubscriptionLeaseCoordinate.validate (coordinate : SubscriptionLeaseCoordinate) :
    Except String Unit :=
  ensure (coordinate.connectionGeneration ≠ 0)
    "subscription lease generation must be greater than zero"

inductive SubscriptionStatus
  | «open» | closed
  deriving DecidableEq, Repr

structure SubscriptionSnapshot where
  subscriptionId : CorrelationId
  streamSha256 : String
  acknowledgedCursor : Nat
  resultIdentityVersion : Option Nat
  retentionFloorCursor : Nat
  headCursor : Nat
  batchSize : Nat
  maxInFlight : Nat
  connectionGeneration : Nat
  leaseExpiresAtUnixMs : Nat
  heartbeatIntervalMs : Nat
  status : SubscriptionStatus

inductive SubscriptionDelivery (D P : Type)
  | changefeed (page : ChangefeedPage P)
  | liveQuery (delta : LiveQueryDelta D)

structure SubscriptionDeliveryBatch (D P : Type) where
  subscriptionId : CorrelationId
  connectionGeneration : Nat
  deliverySequence : Nat
  fromCursor : Nat
  throughCursor : Nat
  delivery : SubscriptionDelivery D P

inductive SubscriptionPoll (D P : Type)
  | idle (subscription : SubscriptionSnapshot)
  | delivery (batch : SubscriptionDeliveryBatch D P)

/-! ### The record -/

structure PendingDelivery where
  connectionGeneration : Nat
  deliverySequence : Nat
  fromCursor : Nat
  throughCursor : Nat
  deriving DecidableEq

structure SubscriptionClosure where
  idempotencyKey : CorrelationId
  operationSha256 : String
  closedAtUnixMs : Nat
  deriving DecidableEq

structure SubscriptionState (L : Type) where
  formatVersion : Nat
  subscriptionId : CorrelationId
  ownerSessionId : CorrelationId
  openIdempotencyKey : CorrelationId
  openOperationSha256 : String
  stream : SubscriptionStream L
  streamSha256 : String
  resultIdentityVersion : Option Nat
  acknowledgedCursor : Nat
  batchSize : Nat
  maxInFlight : Nat
  retentionCursorWindow : Nat
  leaseMs : Nat
  heartbeatIntervalMs : Nat
  connectionGeneration : Nat
  leaseExpiresAtUnixMs : Nat
  nextDeliverySequence : Nat
  pending : List PendingDelivery
  status : SubscriptionStatus
  closure : Option SubscriptionClosure
  deriving DecidableEq

def subscriptionStateFormat : Nat := 1

variable {L D P : Type}

variable (state : SubscriptionState L)

namespace SubscriptionState

/-- Where the next delivery begins. -/
def deliveredCursor : Nat :=
  (state.pending.getLast?.map PendingDelivery.throughCursor).getD state.acknowledgedCursor

/-- Each pending delivery follows on the one before it. -/
def pendingInOrder : Bool :=
  (state.pending.zip state.pending.tail).all fun pair =>
    pair.1.deliverySequence < pair.2.deliverySequence && pair.1.throughCursor = pair.2.fromCursor

def decode : Except ServiceError (SubscriptionState L) := do
  ensure (state.formatVersion = subscriptionStateFormat)
    (.subscription ("unsupported subscription-state format " ++ toString state.formatVersion))
  ensure (state.pending.length ≤ state.maxInFlight ∧ state.pendingInOrder)
    (.subscription "durable subscription delivery window is invalid")
  return state

def ensureOwner (sessionId : CorrelationId) : Except ServiceError Unit :=
  ensure (state.ownerSessionId = sessionId) .permissionDenied

def ensureOpen (now : Nat) : Except ServiceError Unit := do
  ensure (state.status = .open) .subscriptionClosed
  ensure (now < state.leaseExpiresAtUnixMs) .subscriptionLeaseExpired

def ensureLiveIdentityCurrent : Except ServiceError Unit :=
  match state.stream with
  | .changefeed _ => .ok ()
  | .liveQuery .. =>
    ensure (state.resultIdentityVersion = some Engine.resultIdentityVersion)
      (.subscription ("live subscription uses an obsolete result identity version; close it " ++
        "and establish a new baseline"))

def ensureGeneration (generation : Nat) : Except ServiceError Unit :=
  ensure (generation ≠ 0 ∧ generation = state.connectionGeneration) .subscriptionConnectionReplaced

/-- The deadline that a sign of life moves to. -/
def leaseFrom (now : Nat) : Nat :=
  min (now + state.leaseMs) Store.u64Max

def snapshot (head : Nat) : SubscriptionSnapshot where
  subscriptionId := state.subscriptionId
  streamSha256 := state.streamSha256
  acknowledgedCursor := state.acknowledgedCursor
  resultIdentityVersion := state.resultIdentityVersion
  retentionFloorCursor := head - state.retentionCursorWindow
  headCursor := head
  batchSize := state.batchSize
  maxInFlight := state.maxInFlight
  connectionGeneration := state.connectionGeneration
  leaseExpiresAtUnixMs := state.leaseExpiresAtUnixMs
  heartbeatIntervalMs := state.heartbeatIntervalMs
  status := state.status

end SubscriptionState

/-! ### Access to storage -/

/-- The single accesses to storage of the calls of one subscription. -/
inductive Access (L : Type)
  | load
  | cursor
  | page (scope : ScopeId) (after limit : Nat)
  | poll (query : L) (after : Nat) (resultIdentityVersion : Option Nat)
  | replace (expected : Option (SubscriptionState L)) (next : SubscriptionState L)

/-- What an access returns. -/
abbrev Access.Value (D : Type) : Access L → Type
  | .load => Option (SubscriptionState L)
  | .cursor => Nat
  | .page .. => Store.RuntimeChangePage
  | .poll .. => LiveQueryDelta D
  | .replace .. => Unit

abbrev SubscriptionTask (L D : Type) := Task (Access L) (Access.Value D) ServiceError

def loadRecord : SubscriptionTask L D (Option (SubscriptionState L)) := Task.access Access.load

def readCursor : SubscriptionTask L D Nat := Task.access Access.cursor

def readPage (scope : ScopeId) (after limit : Nat) : SubscriptionTask L D Store.RuntimeChangePage :=
  Task.access (Access.page scope after limit)

def pollQuery (query : L) (after : Nat) (resultIdentityVersion : Option Nat) :
    SubscriptionTask L D (LiveQueryDelta D) :=
  Task.access (Access.poll query after resultIdentityVersion)

def replaceRecord (expected : Option (SubscriptionState L)) (next : SubscriptionState L) :
    SubscriptionTask L D Unit :=
  Task.access (Access.replace expected next)

/-- What the engine takes from outside: the instance, the public form of changes, digests of
requests and the check of live queries. -/
structure SubscriptionServices (L P : Type) where
  «instance» : CanonicalId
  publicRuntimeChange : RuntimeChange → Except ServiceError P
  openDigest : OpenSubscription L → String
  streamDigest : SubscriptionStream L → String
  closeDigest : String
  validateLiveQuery : L → (resultIdentityVersion : Option Nat) → (after : Nat) → Except String Unit

/-- Who calls, when, and what the session and the security policy say to it. -/
structure Caller where
  sessionId : CorrelationId
  now : Nat
  authorize : SecurityAction → Except ServiceError Unit
  policy : SecurityAction → Except ServiceError Unit

def SubscriptionStream.action : SubscriptionStream L → SecurityAction
  | .changefeed _ => .changefeedFollow
  | .liveQuery .. => .queryLivePoll

def SubscriptionStream.scope : SubscriptionStream L → String
  | .changefeed scope => scope
  | .liveQuery scope _ _ => scope

def validateResumeCursor (after head retentionWindow : Nat) : Except ServiceError Unit := do
  ensure (after ≤ head)
    (.subscription ("subscription resume cursor " ++ toString after ++ " exceeds runtime head " ++
      toString head))
  ensure (head - retentionWindow ≤ after) (.subscriptionExpired after (head - retentionWindow) head)

section Calls

variable (services : SubscriptionServices L P)

def subscriptionScope : String := "instance:" ++ services.instance.val

def OpenSubscription.validate (request : OpenSubscription L) : Except String Unit := do
  ensure (request.batchSize ≠ 0 ∧ request.batchSize ≤ maxChangefeedPage)
    "subscription batch_size must be in 1..=4096"
  match request.stream with
  | .changefeed scope =>
    ReadChangefeed.validate
      { scope, afterCursor := request.afterCursor, limit := request.batchSize }
  | .liveQuery _ query version =>
    services.validateLiveQuery query version request.afterCursor
  ensure (request.maxInFlight ≠ 0 ∧ request.maxInFlight ≤ maxSubscriptionInFlight)
    "subscription max_in_flight must be in 1..=64"
  ensure (request.batchSize ≤ request.retentionCursorWindow ∧
      request.retentionCursorWindow ≤ maxSubscriptionRetentionCursors)
    "subscription retention_cursor_window must be between batch_size and 10000000"
  ensure (minLeaseMs ≤ request.leaseMs ∧ request.leaseMs ≤ maxLeaseMs)
    "subscription lease_ms must be in 1000..=3600000"
  ensure (minSubscriptionHeartbeatMs ≤ request.heartbeatIntervalMs ∧
      request.heartbeatIntervalMs ≤ maxSubscriptionHeartbeatMs)
    "subscription heartbeat_interval_ms must be in 100..=30000"

/-- The identity version that the record of a new subscription keeps. -/
def openIdentityVersion (request : OpenSubscription L) : Except ServiceError (Option Nat) :=
  match request.stream with
  | .changefeed _ => .ok none
  | .liveQuery _ _ version => do
      ensure ((∀ v ∈ version, v = resultIdentityVersion) ∧
          (request.afterCursor = 0 ∨ version = some resultIdentityVersion))
        (.subscription ("live subscription continuation requires the current result identity " ++
          "version; establish a new baseline"))
      return some resultIdentityVersion

variable (caller : Caller)

variable (idempotencyKey : CorrelationId)

/-- The record of a new subscription. -/
def SubscriptionState.opened (request : OpenSubscription L) (version : Option Nat) :
    SubscriptionState L where
  formatVersion := subscriptionStateFormat
  subscriptionId := request.subscriptionId
  ownerSessionId := caller.sessionId
  openIdempotencyKey := idempotencyKey
  openOperationSha256 := services.openDigest request
  stream := request.stream
  streamSha256 := services.streamDigest request.stream
  resultIdentityVersion := version
  acknowledgedCursor := request.afterCursor
  batchSize := request.batchSize
  maxInFlight := request.maxInFlight
  retentionCursorWindow := request.retentionCursorWindow
  leaseMs := request.leaseMs
  heartbeatIntervalMs := request.heartbeatIntervalMs
  connectionGeneration := 0
  leaseExpiresAtUnixMs := min (caller.now + request.leaseMs) Store.u64Max
  nextDeliverySequence := 1
  pending := []
  status := .open
  closure := none

def openSubscription (request : OpenSubscription L) :
    SubscriptionTask L D (SubscriptionSnapshot × Bool) := do
  Task.ofExcept ((request.validate services).mapError .subscription)
  Task.ofExcept (caller.authorize .subscriptionOpen)
  Task.ofExcept (caller.policy request.stream.action)
  Task.require (request.stream.scope = subscriptionScope services) .wrongScope
  let version ← Task.ofExcept (openIdentityVersion request)
  let head ← readCursor
  Task.ofExcept (validateResumeCursor request.afterCursor head request.retentionCursorWindow)
  match ← loadRecord with
  | some stored => do
      let state ← Task.ofExcept stored.decode
      Task.ofExcept (state.ensureOwner caller.sessionId)
      Task.require (state.openIdempotencyKey = idempotencyKey ∧
          state.openOperationSha256 = services.openDigest request)
        .idempotencyConflict
      return (state.snapshot head, true)
  | none => do
      let state := SubscriptionState.opened services caller idempotencyKey request version
      replaceRecord none state
      return (state.snapshot head, false)

/-- The record that a call of the owner finds. -/
def ownRecord : SubscriptionTask L D (SubscriptionState L) := do
  match ← loadRecord with
  | none => Task.ofExcept (.error .subscriptionNotFound)
  | some stored => do
      let state ← Task.ofExcept stored.decode
      Task.ofExcept (state.ensureOwner caller.sessionId)
      return state

/-- A live connection may be used. -/
def SubscriptionState.ensureLive (state : SubscriptionState L) (caller : Caller) :
    Except ServiceError Unit := do
  state.ensureOpen caller.now
  state.ensureLiveIdentityCurrent

def checkedNext (n : Nat) (message : String) : Except ServiceError Nat := do
  ensure (n < Store.u64Max) (.subscription message)
  return n + 1

def connectSubscription (resume : SubscriptionResume) :
    SubscriptionTask L D SubscriptionSnapshot := do
  Task.ofExcept (resume.validate.mapError .subscription)
  Task.ofExcept (caller.authorize .subscriptionConnect)
  let state ← ownRecord caller
  Task.ofExcept (state.ensureLive caller)
  Task.require (state.streamSha256 = resume.streamSha256 ∧
      state.connectionGeneration = resume.connectionGeneration ∧
      state.acknowledgedCursor = resume.acknowledgedCursor)
    (.subscription "subscription resume coordinates do not match durable state")
  Task.ofExcept (caller.policy state.stream.action)
  let head ← readCursor
  Task.ofExcept (validateResumeCursor state.acknowledgedCursor head state.retentionCursorWindow)
  let connectionGeneration ← Task.ofExcept
    (checkedNext state.connectionGeneration "connection generation overflow")
  -- An interrupted connection never advances the acknowledged cursor; its window is
  -- cleared, so that the new connection repeats it.
  let next := { state with
    connectionGeneration
    leaseExpiresAtUnixMs := state.leaseFrom caller.now
    pending := [] }
  replaceRecord (some state) next
  return next.snapshot head

def readChangefeedPage (request : ReadChangefeed) : SubscriptionTask L D (ChangefeedPage P) := do
  Task.ofExcept (request.validate.mapError .changefeed)
  Task.require (request.scope = subscriptionScope services) .wrongScope
  if hscope : checkText "runtime scope" request.scope = .ok () then do
    let page ← readPage ⟨request.scope, hscope⟩ request.afterCursor request.limit
    let changes ← Task.ofExcept (page.changes.mapM services.publicRuntimeChange)
    return {
      requestedAfterCursor := page.requestedAfter
      throughCursor := page.throughCursor
      headCursor := page.headCursor
      hasMore := page.hasMore
      changes }
  else Task.ofExcept (.error (.changefeed "runtime scope is not a valid identifier"))

/-- The content of the next delivery and where it ends. -/
def readDelivery (state : SubscriptionState L) (after : Nat) :
    SubscriptionTask L D (Nat × SubscriptionDelivery D P) :=
  match state.stream with
  | .changefeed scope => do
      let page ← readChangefeedPage services
        { scope, afterCursor := after, limit := state.batchSize }
      return (page.throughCursor, .changefeed page)
  | .liveQuery _ query _ => do
      let delta ← pollQuery query after state.resultIdentityVersion
      return (delta.throughCursor, .liveQuery delta)

def nextSubscriptionDelivery (connectionGeneration : Nat) :
    SubscriptionTask L D (SubscriptionPoll D P) := do
  Task.ofExcept (caller.authorize .subscriptionConnect)
  let state ← ownRecord caller
  Task.ofExcept (state.ensureLive caller)
  Task.ofExcept (state.ensureGeneration connectionGeneration)
  Task.ofExcept (caller.policy state.stream.action)
  let head ← readCursor
  Task.ofExcept (validateResumeCursor state.acknowledgedCursor head state.retentionCursorWindow)
  Task.require (state.pending.length < state.maxInFlight) .subscriptionBackpressure
  if head ≤ state.deliveredCursor then return .idle (state.snapshot head)
  else do
    let nextDeliverySequence ← Task.ofExcept
      (checkedNext state.nextDeliverySequence "delivery sequence overflow")
    let (throughCursor, delivery) ← readDelivery services state state.deliveredCursor
    if throughCursor ≤ state.deliveredCursor then return .idle (state.snapshot head)
    else do
      replaceRecord (some state) { state with
        nextDeliverySequence
        pending := state.pending ++ [{
          connectionGeneration
          deliverySequence := state.nextDeliverySequence
          fromCursor := state.deliveredCursor
          throughCursor }] }
      return .delivery {
        subscriptionId := state.subscriptionId
        connectionGeneration
        deliverySequence := state.nextDeliverySequence
        fromCursor := state.deliveredCursor
        throughCursor
        delivery }

def SubscriptionAcknowledgement.names (acknowledgement : SubscriptionAcknowledgement)
    (delivery : PendingDelivery) : Bool :=
  delivery.connectionGeneration = acknowledgement.connectionGeneration &&
    delivery.deliverySequence = acknowledgement.deliverySequence &&
    delivery.throughCursor = acknowledgement.throughCursor

def acknowledgeSubscription (acknowledgement : SubscriptionAcknowledgement) :
    SubscriptionTask L D SubscriptionSnapshot := do
  Task.ofExcept (acknowledgement.validate.mapError .subscription)
  Task.ofExcept (caller.authorize .subscriptionAck)
  let state ← ownRecord caller
  Task.ofExcept (state.ensureLive caller)
  Task.ofExcept (caller.policy state.stream.action)
  Task.ofExcept (state.ensureGeneration acknowledgement.connectionGeneration)
  match state.pending.findIdx? acknowledgement.names with
  | none => Task.ofExcept (.error (.subscription
      "ACK does not identify an outstanding delivery in this connection"))
  | some position => do
      let next := { state with
        acknowledgedCursor := acknowledgement.throughCursor
        pending := state.pending.drop (position + 1)
        leaseExpiresAtUnixMs := state.leaseFrom caller.now }
      let head ← readCursor
      replaceRecord (some state) next
      return next.snapshot head

def renewSubscriptionLease (coordinate : SubscriptionLeaseCoordinate) :
    SubscriptionTask L D SubscriptionSnapshot := do
  Task.ofExcept (coordinate.validate.mapError .subscription)
  Task.ofExcept (caller.authorize .subscriptionAck)
  let state ← ownRecord caller
  Task.ofExcept (state.ensureLive caller)
  Task.ofExcept (caller.policy state.stream.action)
  Task.ofExcept (state.ensureGeneration coordinate.connectionGeneration)
  Task.require (state.acknowledgedCursor = coordinate.acknowledgedCursor)
    (.subscription "subscription heartbeat cursor does not match durable ACK")
  let next := { state with leaseExpiresAtUnixMs := state.leaseFrom caller.now }
  let head ← readCursor
  replaceRecord (some state) next
  return next.snapshot head

def closeSubscription : SubscriptionTask L D (SubscriptionSnapshot × Bool) := do
  Task.ofExcept (caller.authorize .subscriptionClose)
  let state ← ownRecord caller
  match state.closure with
  | some closure => do
      Task.require (closure.idempotencyKey = idempotencyKey ∧
          closure.operationSha256 = services.closeDigest)
        .idempotencyConflict
      let head ← readCursor
      return (state.snapshot head, true)
  | none => do
      let next := { state with
        status := .closed
        pending := []
        closure := some {
          idempotencyKey
          operationSha256 := services.closeDigest
          closedAtUnixMs := caller.now } }
      let head ← readCursor
      replaceRecord (some state) next
      return (next.snapshot head, false)

inductive SubscriptionCall (L : Type)
  | «open» (idempotencyKey : CorrelationId) (request : OpenSubscription L)
  | connect (resume : SubscriptionResume)
  | next (connectionGeneration : Nat)
  | acknowledge (acknowledgement : SubscriptionAcknowledgement)
  | renew (coordinate : SubscriptionLeaseCoordinate)
  | close (idempotencyKey : CorrelationId)

inductive SubscriptionAnswer (D P : Type)
  | opened (subscription : SubscriptionSnapshot) (idempotentReplay : Bool)
  | connected (subscription : SubscriptionSnapshot)
  | polled (poll : SubscriptionPoll D P)
  | acknowledged (subscription : SubscriptionSnapshot)
  | renewed (subscription : SubscriptionSnapshot)
  | closed (subscription : SubscriptionSnapshot) (idempotentReplay : Bool)

def SubscriptionCall.generation? : SubscriptionCall L → Option Nat
  | .connect resume => some resume.connectionGeneration
  | .next connectionGeneration => some connectionGeneration
  | .acknowledge acknowledgement => some acknowledgement.connectionGeneration
  | .renew coordinate => some coordinate.connectionGeneration
  | .open .. | .close _ => none

def SubscriptionCall.program : SubscriptionCall L →
    SubscriptionTask L D (SubscriptionAnswer D P)
  | .open idempotencyKey request => do
      let (subscription, replay) ← openSubscription services caller idempotencyKey request
      return .opened subscription replay
  | .connect resume => do
      let subscription ← connectSubscription caller resume
      return .connected subscription
  | .next connectionGeneration => do
      let poll ← nextSubscriptionDelivery services caller connectionGeneration
      return .polled poll
  | .acknowledge acknowledgement => do
      let subscription ← acknowledgeSubscription caller acknowledgement
      return .acknowledged subscription
  | .renew coordinate => do
      let subscription ← renewSubscriptionLease caller coordinate
      return .renewed subscription
  | .close idempotencyKey => do
      let (subscription, replay) ← closeSubscription services caller idempotencyKey
      return .closed subscription replay

end Calls

structure SubscriptionWorld (L : Type) where
  store : Store.State
  record : Option (SubscriptionState L)

/-- What an access does. Any access may fail without effect. -/
def Access.acts (digests : Digests) : (access : Access L) → SubscriptionWorld L →
    Except ServiceError (access.Value D) → SubscriptionWorld L → Prop
  | .load, world, reply, world' =>
    world' = world ∧ ∀ record, reply = .ok record → record = world.record
  | .cursor, world, reply, world' =>
    world' = world ∧ ∀ cursor, reply = .ok cursor → cursor = world.store.cursor
  | .page scope after limit, world, reply, world' =>
    world' = world ∧ ∀ page, reply = .ok page →
      Store.changesSince digests world.store after limit (some scope) = .ok page
  | .poll .., world, _, world' => world' = world
  | .replace expected next, world, reply, world' =>
    (reply = .ok () ∧ world.record = expected ∧ world' = { world with record := some next }) ∨
    ((∃ error, reply = .error error) ∧ world' = world)

/-- Storage that never fails, without live queries. -/
def Access.perform [DecidableEq L] (digests : Digests) : (access : Access L) →
    SubscriptionWorld L → Except ServiceError (access.Value D) × SubscriptionWorld L
  | .load, world => (.ok world.record, world)
  | .cursor, world => (.ok world.store.cursor, world)
  | .page scope after limit, world =>
    ((Store.changesSince digests world.store after limit (some scope)).mapError .ofStore, world)
  | .poll .., world => (.error (.subscription "no live queries"), world)
  | .replace expected next, world =>
    if world.record = expected then (.ok (), { world with record := some next })
    else (.error (.storageConflict (.controlConflict "subscription")), world)

theorem Access.acts_perform [DecidableEq L] (digests : Digests) (access : Access L)
    (world : SubscriptionWorld L) :
    access.acts digests world (access.perform (D := D) digests world).1
      (access.perform (D := D) digests world).2 := by
  cases access with
  | load => exact ⟨rfl, fun record hrecord => (Except.ok.inj hrecord).symm⟩
  | cursor => exact ⟨rfl, fun cursor hcursor => (Except.ok.inj hcursor).symm⟩
  | page scope after limit =>
    refine ⟨rfl, fun page hpage => ?_⟩
    rw [Access.perform] at hpage
    cases hread : Store.changesSince digests world.store after limit (some scope) with
    | ok other =>
      rw [hread] at hpage
      exact congrArg Except.ok (Except.ok.inj hpage)
    | error error =>
      rw [hread] at hpage
      cases hpage
  | poll query after version => rfl
  | replace expected next =>
    rw [Access.perform]
    split
    · next hrecord => exact .inl ⟨rfl, hrecord, rfl⟩
    · exact .inr ⟨⟨_, rfl⟩, rfl⟩

/-- Calls of any number of clients on one subscription of a store that takes requests. -/
def subscriptionSystem (services : SubscriptionServices L P) (externals : Store.Externals) :
    System (Access L) (fun access => Except ServiceError (access.Value D))
      (Except ServiceError (SubscriptionAnswer D P)) (SubscriptionWorld L)
      (Caller × SubscriptionCall L) where
  acts := Access.acts externals.digests
  environment world world' := ∃ request writes,
    Store.Request.prepare externals world.store request = .ok writes ∧
      world' = { world with store := world.store.applyAll writes }
  program call := call.2.program services call.1
  initial world := Store.Reachable externals world.store ∧ world.record = none

end Rrflow.Engine

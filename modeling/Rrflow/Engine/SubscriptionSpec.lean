import Rrflow.Engine.Subscription

/-!
Subscriptions deliver without gap or loss.

Whatever calls race on a subscription, its record only ever makes a few kinds of moves, and a
delivery is issued together with the move that records it (`Move`). A page that was read
before the move is still the page of the log at the time of the move, because the log only
grows. From the moves follows what a connection has been given and what is outstanding.
-/

namespace Rrflow.Engine

open Kernel Contract Checks Interleave List SubscriptionDeliveryBatch

variable {L D P : Type}

variable {caller : Caller}

abbrev SubscriptionReply (D P : Type) := Except ServiceError (SubscriptionAnswer D P)

/-- Every answer but that of a connection and a delivery. -/
def Uneventful : SubscriptionReply D P → Prop
  | .ok (.connected _) => False
  | .ok (.polled (.delivery _)) => False
  | _ => True

/-- How a delivery is recorded. -/
def SubscriptionDeliveryBatch.pending (batch : SubscriptionDeliveryBatch D P) :
    PendingDelivery where
  connectionGeneration := batch.connectionGeneration
  deliverySequence := batch.deliverySequence
  fromCursor := batch.fromCursor
  throughCursor := batch.throughCursor

def SubscriptionDeliveryBatch.changes (batch : SubscriptionDeliveryBatch D P) : List P :=
  match batch.delivery with
  | .changefeed page => page.changes
  | .liveQuery _ => []

/-- The changes of a scope in an interval of the log, in public form. -/
def publicChanges (services : SubscriptionServices L P) (log : List RuntimeChange) (scope : String)
    (start stop : Nat) : Except ServiceError (List P) :=
  ((Feed.window log start stop).filter fun change => change.scope.val = scope).mapM
    services.publicRuntimeChange

/-- A delivery of a change feed has the changes of its interval. -/
def Carries (services : SubscriptionServices L P) (log : List RuntimeChange)
    (stream : SubscriptionStream L) (batch : SubscriptionDeliveryBatch D P) : Prop :=
  ∀ scope, stream = .changefeed scope → batch.throughCursor ≤ log.length ∧
    publicChanges services log scope batch.fromCursor batch.throughCursor = .ok batch.changes

/-- What a step of a call can do to the record, with the answer given at that step. -/
inductive Move (services : SubscriptionServices L P) (log : List RuntimeChange)
    (call : SubscriptionCall L) : Option (SubscriptionState L) → Option (SubscriptionState L) →
    Option (SubscriptionReply D P) → Prop
  | stay {record : Option (SubscriptionState L)} {answer : Option (SubscriptionReply D P)} :
      (∀ a ∈ answer, Uneventful a) → Move services log call record record answer
  | opened {state : SubscriptionState L} {answer : Option (SubscriptionReply D P)} :
      call.generation? = none → state.connectionGeneration = 0 → state.pending = [] →
      (∀ a ∈ answer, Uneventful a) → Move services log call none (some state) answer
  | connected {state : SubscriptionState L} {subscription : SubscriptionSnapshot} {lease : Nat} :
      call.generation? = some state.connectionGeneration → state.status = .open →
      subscription.acknowledgedCursor = state.acknowledgedCursor →
      Move services log call (some state)
        (some { state with
          connectionGeneration := state.connectionGeneration + 1
          leaseExpiresAtUnixMs := lease
          pending := [] })
        (some (.ok (.connected subscription)))
  | delivered {state : SubscriptionState L} (batch : SubscriptionDeliveryBatch D P)
      (sequence : Nat) :
      call.generation? = some state.connectionGeneration → state.connectionGeneration ≠ 0 →
      state.status = .open → state.pending.length < state.maxInFlight →
      batch.connectionGeneration = state.connectionGeneration →
      batch.fromCursor = state.deliveredCursor → batch.fromCursor < batch.throughCursor →
      Carries services log state.stream batch →
      Move services log call (some state)
        (some { state with
          nextDeliverySequence := sequence
          pending := state.pending ++ [batch.pending] })
        (some (.ok (.polled (.delivery batch))))
  | acknowledged {state : SubscriptionState L} {before rest : List PendingDelivery}
      {delivery : PendingDelivery} {lease : Nat} {answer : Option (SubscriptionReply D P)} :
      call.generation? = some state.connectionGeneration → state.status = .open →
      state.pending = before ++ delivery :: rest → (∀ a ∈ answer, Uneventful a) →
      Move services log call (some state)
        (some { state with
          acknowledgedCursor := delivery.throughCursor
          pending := rest
          leaseExpiresAtUnixMs := lease }) answer
  | renewed {state : SubscriptionState L} {lease : Nat} {answer : Option (SubscriptionReply D P)} :
      call.generation? = some state.connectionGeneration → (∀ a ∈ answer, Uneventful a) →
      Move services log call (some state) (some { state with leaseExpiresAtUnixMs := lease }) answer
  | closed {state : SubscriptionState L} {closure : SubscriptionClosure}
      {answer : Option (SubscriptionReply D P)} :
      call.generation? = none → (∀ a ∈ answer, Uneventful a) →
      Move services log call (some state)
        (some { state with status := .closed, pending := [], closure := some closure }) answer

variable {services : SubscriptionServices L P} {externals : Store.Externals}

/-- The log of the store grows, and the record makes moves. -/
def subscriptionContract (services : SubscriptionServices L P) (externals : Store.Externals) :
    Interleave.Contract (subscriptionSystem (D := D) services externals) where
  always world := Store.Reachable externals world.store
  rely world world' := world.store.log <+: world'.store.log
  guarantee call world world' answer :=
    world'.store = world.store ∧
      Move services world.store.log call.2 world.record world'.record answer
  rely_refl _ := prefix_rfl
  rely_trans _ _ _ := List.IsPrefix.trans
  initial _ h := h.1
  environment world world' h henvironment := by
    obtain ⟨request, writes, hprepare, rfl⟩ := henvironment
    obtain ⟨more, hlog⟩ := h.whole.log_prefix_step hprepare
    exact ⟨⟨more, hlog.symm⟩, h.step hprepare⟩
  guaranteed call world world' answer h hguarantee := by
    rw [hguarantee.1]
    exact ⟨prefix_rfl, h⟩

/-! ### The calls keep to the moves -/

section Keeping

variable {α : Type} {call : Caller × SubscriptionCall L} {world : SubscriptionWorld L}

/-- A call that makes only such moves and has not just given the answer of one. -/
abbrev Moves (services : SubscriptionServices L P) (externals : Store.Externals)
    (call : Caller × SubscriptionCall L) (task : SubscriptionTask L D (SubscriptionAnswer D P))
    (world : SubscriptionWorld L) : Prop :=
  Holds (subscriptionContract (D := D) services externals) Uneventful call task world

theorem uneventful_error (error : ServiceError) : Uneventful (.error error : SubscriptionReply D P) :=
  trivial

theorem moves_check {x : Except ServiceError α} {f : α → SubscriptionTask L D (SubscriptionAnswer D P)}
    (h : ∀ a, x = .ok a → Moves services externals call (f a) world) :
    Moves services externals call (Task.ofExcept x >>= f) world :=
  holds_ofExcept uneventful_error h

theorem moves_require {c : Prop} [Decidable c] {error : ServiceError}
    {f : Unit → SubscriptionTask L D (SubscriptionAnswer D P)}
    (h : c → Moves services externals call (f ()) world) :
    Moves services externals call (Task.require c error >>= f) world :=
  holds_require uneventful_error h

theorem stays (call : Caller × SubscriptionCall L) (world : SubscriptionWorld L)
    (answer : Option (SubscriptionReply D P)) (h : ∀ a ∈ answer, Uneventful a) :
    (subscriptionContract services externals).guarantee call world world answer :=
  ⟨rfl, .stay h⟩

theorem moves_readCursor {f : Nat → SubscriptionTask L D (SubscriptionAnswer D P)}
    (h : ∀ world' head, world.store.log <+: world'.store.log →
      Moves services externals call (f head) world') :
    Moves services externals call (readCursor >>= f) world :=
  holds_read uneventful_error stays Access.cursor (fun _ _ _ hacts => hacts.1)
    fun world' head hrely _ _ => h world' head hrely

theorem moves_loadRecord {f : Option (SubscriptionState L) → SubscriptionTask L D (SubscriptionAnswer D P)}
    (h : ∀ world' record, Moves services externals call (f record) world') :
    Moves services externals call (loadRecord >>= f) world :=
  holds_read uneventful_error stays Access.load (fun _ _ _ hacts => hacts.1)
    fun world' record _ _ _ => h world' record

theorem moves_ownRecord {f : SubscriptionState L → SubscriptionTask L D (SubscriptionAnswer D P)}
    (h : ∀ world' state, Moves services externals call (f state) world') :
    Moves services externals call (ownRecord caller >>= f) world := by
  rw [ownRecord, Task.bind_assoc]
  refine moves_loadRecord fun world' record => ?_
  cases record with
  | none => exact moves_check nofun
  | some stored =>
    simp only [Task.bind_assoc, Task.pure_bind]
    exact moves_check fun state _ => moves_check fun _ _ => h world' state

theorem carries_mono {log log' : List RuntimeChange} {stream : SubscriptionStream L}
    {batch : SubscriptionDeliveryBatch D P} (h : Carries services log stream batch)
    (hlog : log <+: log') : Carries services log' stream batch := by
  obtain ⟨more, rfl⟩ := hlog
  intro scope hstream
  obtain ⟨hthrough, hchanges⟩ := h scope hstream
  refine ⟨?_, ?_⟩
  · rw [length_append]
    exact hthrough.trans (Nat.le_add_right ..)
  · rw [publicChanges, Feed.window_append_log hthrough]
    exact hchanges

theorem moves_readPage {scope : ScopeId} {after limit : Nat}
    {f : Store.RuntimeChangePage → SubscriptionTask L D (SubscriptionAnswer D P)}
    (h : ∀ world' page,
      (after < page.throughCursor → page.throughCursor ≤ world'.store.log.length ∧
        page.changes = (Feed.window world'.store.log after page.throughCursor).filter
          fun change => change.scope.val = scope.val) →
      Moves services externals call (f page) world') :
    Moves services externals call (readPage scope after limit >>= f) world := by
  refine holds_read uneventful_error stays (Access.page scope after limit)
    (fun _ _ _ hacts => hacts.1) fun world' page _ halways hacts => h world' page fun hlt => ?_
  have hpage : Store.changesSince externals.digests world'.store after limit (some scope) =
      .ok page := hacts.2 page rfl
  have hwhole : Store.Whole externals world'.store := Store.Reachable.whole halways
  have hlimit : limit ≠ 0 := by
    rw [Store.changesSince, Store.changePage, bind_eq_ok] at hpage
    obtain ⟨_, hlimit, -⟩ := hpage
    exact ensure_eq_ok.mp hlimit
  rw [Store.changesSince, hwhole.changePage hwhole.cursor.le after hlimit] at hpage
  obtain ⟨rfl, -⟩ := hpage
  have hend : Store.pageEnd world'.store.cursor after limit ≤ world'.store.log.length := by
    have hcursor := hwhole.cursor
    by_cases hinside : after < world'.store.cursor
    · rw [Store.pageEnd, if_pos hinside]
      omega
    · simp [Store.pageOf, Store.pageEnd, hinside] at hlt
  refine ⟨hend, filter_congr fun change _ => ?_⟩
  simp [Subtype.ext_iff, eq_comm]

theorem moves_readDelivery {state : SubscriptionState L} {after : Nat}
    {f : Nat × SubscriptionDelivery D P → SubscriptionTask L D (SubscriptionAnswer D P)}
    (h : ∀ world' through delivery,
      (after < through → ∀ batch : SubscriptionDeliveryBatch D P, batch.fromCursor = after →
        batch.throughCursor = through → batch.delivery = delivery →
        Carries services world'.store.log state.stream batch) →
      Moves services externals call (f (through, delivery)) world') :
    Moves services externals call (readDelivery services state after >>= f) world := by
  unfold readDelivery
  cases hstream : state.stream with
  | changefeed scope =>
    simp only [readChangefeedPage, Task.bind_assoc, Task.pure_bind]
    refine moves_check fun _ _ => moves_require fun _ => ?_
    split
    · next hscope =>
        simp only [Task.bind_assoc, Task.pure_bind]
        refine moves_readPage fun world' page hpage => moves_check fun changes hchanges => ?_
        refine h world' _ _ fun hlt batch hfrom hthrough hdelivery scope' hsame => ?_
        obtain ⟨hlength, hshown⟩ := hpage hlt
        obtain rfl : scope = scope' := by simpa [hstream] using hsame
        refine ⟨hthrough ▸ hlength, ?_⟩
        rw [publicChanges, hfrom, hthrough, SubscriptionDeliveryBatch.changes, hdelivery,
          ← hshown, hchanges]
    · exact moves_check nofun
  | liveQuery scope query version =>
    simp only [pollQuery, Task.bind_assoc, Task.pure_bind]
    refine holds_read uneventful_error stays (Access.poll query after state.resultIdentityVersion)
      (fun _ _ _ hacts => hacts) fun world' delta _ _ _ => ?_
    exact h world' _ _ fun _ _ _ _ _ scope' hsame => by simp [hstream] at hsame

theorem moves_replace {expected : Option (SubscriptionState L)} {next : SubscriptionState L}
    {answer : SubscriptionAnswer D P}
    (h : ∀ log, world.store.log <+: log →
      Move services log call.2 expected (some next) (some (.ok answer))) :
    Moves services externals call (replaceRecord expected next >>= fun _ => pure answer)
      world := by
  refine holds_last (Access.replace expected next) (f := fun _ => answer)
    fun world' world'' hrely _ => ⟨?_, ?_⟩
  · rintro _ (⟨-, hrecord, rfl⟩ | ⟨⟨error, herror⟩, -⟩)
    · refine ⟨rfl, ?_⟩
      rw [hrecord]
      exact h _ hrely
    · cases herror
  · rintro error (⟨hok, -⟩ | ⟨-, rfl⟩)
    · cases hok
    · exact stays call _ _ (by simp [Uneventful])

theorem moves_open {idempotencyKey : CorrelationId} {request : OpenSubscription L}
    (world : SubscriptionWorld L) :
    Moves (D := D) services externals (caller, .open idempotencyKey request)
      ((SubscriptionCall.open idempotencyKey request).program services caller) world := by
  simp only [SubscriptionCall.program, openSubscription, Task.bind_assoc]
  refine moves_check fun _ _ => moves_check fun _ _ => moves_check fun _ _ =>
    moves_require fun _ => moves_check fun version _ => moves_readCursor fun world' head _ =>
    moves_check fun _ _ => moves_loadRecord fun world'' record => ?_
  cases record with
  | some stored =>
    simp only [Task.bind_assoc, Task.pure_bind]
    exact moves_check fun state _ => moves_check fun _ _ => moves_require fun _ =>
      holds_result trivial
  | none =>
    simp only [Task.bind_assoc, Task.pure_bind]
    exact moves_replace fun log _ => .opened rfl rfl rfl (by simp [Uneventful])

theorem SubscriptionState.status_of_ensureLive {state : SubscriptionState L}
    (h : state.ensureLive caller = .ok ()) : state.status = .open := by
  simp only [ensureLive, ensureOpen, bind_eq_ok, ensure_eq_ok] at h
  obtain ⟨_, ⟨_, hopen, -⟩, -⟩ := h
  exact hopen

theorem moves_connect {resume : SubscriptionResume} (world : SubscriptionWorld L) :
    Moves (D := D) services externals (caller, .connect resume)
      ((SubscriptionCall.connect resume).program services caller) world := by
  simp only [SubscriptionCall.program, connectSubscription, Task.bind_assoc, Task.pure_bind]
  refine moves_check fun _ _ => moves_check fun _ _ => moves_ownRecord fun _ state =>
    moves_check fun _ hlive => moves_require fun hresume => moves_check fun _ _ =>
    moves_readCursor fun _ head _ => moves_check fun _ _ => moves_check fun generation hnext =>
    moves_replace fun log _ => ?_
  obtain ⟨-, rfl⟩ : state.connectionGeneration < Store.u64Max ∧
      state.connectionGeneration + 1 = generation := by
    simpa [checkedNext, bind_eq_ok, ensure_eq_ok, pure, Except.pure] using hnext
  exact .connected (congrArg some hresume.2.1.symm)
    (SubscriptionState.status_of_ensureLive hlive) rfl

theorem moves_next {generation : Nat} (world : SubscriptionWorld L) :
    Moves (D := D) services externals (caller, .next generation)
      ((SubscriptionCall.next generation).program services caller) world := by
  simp only [SubscriptionCall.program, nextSubscriptionDelivery, Task.bind_assoc]
  refine moves_check fun _ _ => moves_ownRecord fun _ state => moves_check fun _ hlive =>
    moves_check fun _ hgeneration => moves_check fun _ _ => moves_readCursor fun _ head _ =>
    moves_check fun _ _ => moves_require fun hroom => ?_
  split
  · exact holds_result trivial
  · simp only [Task.bind_assoc]
    refine moves_check fun sequence _ => moves_readDelivery fun world' through delivery hcarries => ?_
    split
    · exact holds_result trivial
    · next hthrough =>
        simp only [Task.bind_assoc, Task.pure_bind]
        refine moves_replace fun log hlog => ?_
        obtain ⟨hpositive, rfl⟩ := ensure_eq_ok.mp hgeneration
        have hlt := not_le.mp hthrough
        exact .delivered ⟨state.subscriptionId, state.connectionGeneration,
            state.nextDeliverySequence, state.deliveredCursor, through, delivery⟩ sequence
          rfl hpositive (SubscriptionState.status_of_ensureLive hlive) hroom rfl rfl hlt
          (carries_mono (hcarries hlt _ rfl rfl rfl) hlog)

theorem moves_acknowledge {acknowledgement : SubscriptionAcknowledgement}
    (world : SubscriptionWorld L) :
    Moves (D := D) services externals (caller, .acknowledge acknowledgement)
      ((SubscriptionCall.acknowledge acknowledgement).program services caller) world := by
  simp only [SubscriptionCall.program, acknowledgeSubscription, Task.bind_assoc]
  refine moves_check fun _ _ => moves_check fun _ _ => moves_ownRecord fun _ state =>
    moves_check fun _ hlive => moves_check fun _ _ => moves_check fun _ hgeneration => ?_
  cases hposition : state.pending.findIdx? acknowledgement.names with
  | none => exact moves_check nofun
  | some position =>
    simp only [Task.bind_assoc, Task.pure_bind]
    refine moves_readCursor fun _ head _ => moves_replace fun log _ => ?_
    obtain ⟨hlt, hnames, -⟩ := findIdx?_eq_some_iff_getElem.mp hposition
    simp only [SubscriptionAcknowledgement.names, Bool.and_eq_true, decide_eq_true_eq] at hnames
    have hsplit : state.pending = state.pending.take position ++
        state.pending[position] :: state.pending.drop (position + 1) := by
      rw [← drop_eq_getElem_cons hlt, take_append_drop]
    rw [← hnames.2]
    exact .acknowledged (congrArg some (ensure_eq_ok.mp hgeneration).2)
      (SubscriptionState.status_of_ensureLive hlive) hsplit (by simp [Uneventful])

theorem moves_renew {coordinate : SubscriptionLeaseCoordinate} (world : SubscriptionWorld L) :
    Moves (D := D) services externals (caller, .renew coordinate)
      ((SubscriptionCall.renew coordinate).program services caller) world := by
  simp only [SubscriptionCall.program, renewSubscriptionLease, Task.bind_assoc, Task.pure_bind]
  refine moves_check fun _ _ => moves_check fun _ _ => moves_ownRecord fun _ state =>
    moves_check fun _ _ => moves_check fun _ _ => moves_check fun _ hgeneration =>
    moves_require fun _ => moves_readCursor fun _ head _ => moves_replace fun log _ => ?_
  exact .renewed (congrArg some (ensure_eq_ok.mp hgeneration).2) (by simp [Uneventful])

theorem moves_close {idempotencyKey : CorrelationId} (world : SubscriptionWorld L) :
    Moves (D := D) services externals (caller, .close idempotencyKey)
      ((SubscriptionCall.close idempotencyKey).program services caller) world := by
  simp only [SubscriptionCall.program, closeSubscription, Task.bind_assoc]
  refine moves_check fun _ _ => moves_ownRecord fun _ state => ?_
  cases state.closure with
  | some closure =>
    simp only [Task.bind_assoc, Task.pure_bind]
    exact moves_require fun _ => moves_readCursor fun _ head _ => holds_result trivial
  | none =>
    simp only [Task.bind_assoc, Task.pure_bind]
    exact moves_readCursor fun _ head _ => moves_replace fun log _ =>
      .closed rfl (by simp [Uneventful])

/-- Whatever the others do, every call only makes moves. -/
theorem keeps_program (services : SubscriptionServices L P) (externals : Store.Externals)
    (call : Caller × SubscriptionCall L) (world : SubscriptionWorld L) :
    Keeps (subscriptionContract (D := D) services externals) call
      ((subscriptionSystem services externals).program call) world := by
  obtain ⟨caller, call⟩ := call
  cases call with
  | «open» idempotencyKey request => exact (moves_open world).2
  | connect resume => exact (moves_connect world).2
  | next generation => exact (moves_next world).2
  | acknowledge acknowledgement => exact (moves_acknowledge world).2
  | renew coordinate => exact (moves_renew world).2
  | close idempotencyKey => exact (moves_close world).2

end Keeping

/-! ### What a connection was given -/

/-- A connection: where it began and the deliveries issued to it, in order. -/
structure Connection (D P : Type) where
  baseline : Nat
  deliveries : List (SubscriptionDeliveryBatch D P)

/-- The connection after one more answer. -/
def Connection.after : Option (Connection D P) → SubscriptionReply D P → Option (Connection D P)
  | _, .ok (.connected subscription) => some ⟨subscription.acknowledgedCursor, []⟩
  | some connection, .ok (.polled (.delivery batch)) =>
    some { connection with deliveries := connection.deliveries ++ [batch] }
  | connection, _ => connection

/-- The last connection among the answers of a run. -/
def lastConnection (answers : List (SubscriptionReply D P)) : Option (Connection D P) :=
  answers.foldl Connection.after none

theorem lastConnection_uneventful {answers : List (SubscriptionReply D P)}
    {answer : Option (SubscriptionReply D P)} (h : ∀ a ∈ answer, Uneventful a) :
    lastConnection (answers ++ answer.toList) = lastConnection answers := by
  cases answer with
  | none => rw [Option.toList_none, append_nil]
  | some reply =>
    have hquiet := h reply rfl
    rw [lastConnection, foldl_append, lastConnection]
    show Connection.after _ reply = _
    unfold Connection.after
    split
    · cases hquiet
    · cases hquiet
    · rfl

/-- What was issued to a connection, and what of it is outstanding. -/
structure Connection.Issued (services : SubscriptionServices L P) (log : List RuntimeChange)
    (state : SubscriptionState L) (connection : Connection D P) : Prop where
  linked : ∃ stop, Feed.Linked fromCursor
    throughCursor connection.baseline connection.deliveries stop
  carries : ∀ batch ∈ connection.deliveries,
    batch.connectionGeneration = state.connectionGeneration ∧
      Carries services log state.stream batch
  outstanding : state.status = .open → ∃ settled outstanding,
    connection.deliveries = settled ++ outstanding ∧
      Feed.Linked fromCursor throughCursor connection.baseline settled state.acknowledgedCursor ∧
      outstanding.map pending = state.pending

/-- The window of a record, against the answers that were given. -/
structure Tracked (services : SubscriptionServices L P) (log : List RuntimeChange)
    (answers : List (SubscriptionReply D P)) (state : SubscriptionState L) : Prop where
  window : Feed.Linked PendingDelivery.fromCursor PendingDelivery.throughCursor
    state.acknowledgedCursor state.pending state.deliveredCursor
  room : state.pending.length ≤ state.maxInFlight
  unconnected : lastConnection answers = none → state.connectionGeneration = 0 ∧ state.pending = []
  connection : ∀ connection ∈ lastConnection answers, connection.Issued services log state

theorem SubscriptionState.window_of_linked {state : SubscriptionState L} {stop : Nat}
    (h : Feed.Linked PendingDelivery.fromCursor PendingDelivery.throughCursor
      state.acknowledgedCursor state.pending stop) :
    Feed.Linked PendingDelivery.fromCursor PendingDelivery.throughCursor
      state.acknowledgedCursor state.pending state.deliveredCursor := by
  have hstop : stop = state.deliveredCursor := h.stop_eq
  exact hstop ▸ h

variable {log : List RuntimeChange} {answers : List (SubscriptionReply D P)}
  {state : SubscriptionState L} {call : SubscriptionCall L}
  {answer : Option (SubscriptionReply D P)}

theorem Tracked.uneventful (h : Tracked services log answers state) (hquiet : ∀ a ∈ answer, Uneventful a) :
    Tracked services log (answers ++ answer.toList) state := by
  refine ⟨h.window, h.room, ?_, ?_⟩ <;> rw [lastConnection_uneventful hquiet]
  · exact h.unconnected
  · exact h.connection

theorem Tracked.append_log {log' : List RuntimeChange} (h : Tracked services log answers state)
    (hlog : log <+: log') : Tracked services log' answers state :=
  { h with
    connection := fun connection hconnection =>
      let issued := h.connection connection hconnection
      { issued with
        carries := fun batch hbatch => ⟨(issued.carries batch hbatch).1,
          carries_mono (issued.carries batch hbatch).2 hlog⟩ } }

theorem Tracked.connected {subscription : SubscriptionSnapshot} {generation lease : Nat}
    (hcursor : subscription.acknowledgedCursor = state.acknowledgedCursor) :
    Tracked services log (answers ++ [.ok (.connected subscription)])
      { state with
        connectionGeneration := generation, leaseExpiresAtUnixMs := lease, pending := [] } := by
  have hlast : lastConnection (answers ++ [.ok (.connected subscription)]) =
      (some ⟨subscription.acknowledgedCursor, []⟩ : Option (Connection D P)) := by
    rw [lastConnection, foldl_append]
    rfl
  refine ⟨SubscriptionState.window_of_linked rfl, Nat.zero_le _, fun hnone => ?_, fun connection hconnection => ?_⟩
  · rw [hlast] at hnone
    cases hnone
  · rw [hlast, Option.mem_some_iff] at hconnection
    subst hconnection
    exact ⟨⟨_, rfl⟩, nofun, fun _ => ⟨[], [], rfl, hcursor, rfl⟩⟩

/-- A delivery continues the window and what was issued. -/
theorem Tracked.delivered {batch : SubscriptionDeliveryBatch D P} {sequence : Nat}
    (h : Tracked services log answers state) (hgeneration : state.connectionGeneration ≠ 0)
    (hopen : state.status = .open) (hroom : state.pending.length < state.maxInFlight)
    (hsame : batch.connectionGeneration = state.connectionGeneration)
    (hfrom : batch.fromCursor = state.deliveredCursor)
    (hlt : batch.fromCursor < batch.throughCursor)
    (hcarries : Carries services log state.stream batch) :
    Tracked services log (answers ++ [.ok (.polled (.delivery batch))])
      { state with
        nextDeliverySequence := sequence, pending := state.pending ++ [batch.pending] } := by
  obtain ⟨connection, hconnection⟩ : ∃ connection, lastConnection answers = some connection := by
    rw [← Option.isSome_iff_exists, Option.isSome_iff_ne_none]
    exact fun hnone => hgeneration (h.unconnected hnone).1
  have hlast : lastConnection (answers ++ [.ok (.polled (.delivery batch))]) =
      some { connection with deliveries := connection.deliveries ++ [batch] } := by
    rw [lastConnection, foldl_append, ← lastConnection, hconnection]
    rfl
  have hissued := h.connection connection hconnection
  obtain ⟨settled, outstanding, hdeliveries, hsettled, houtstanding⟩ := hissued.outstanding hopen
  have hwindow : Feed.Linked PendingDelivery.fromCursor PendingDelivery.throughCursor
      state.acknowledgedCursor (state.pending ++ [batch.pending]) batch.throughCursor := by
    have hwindow := h.window
    rw [← hfrom] at hwindow
    exact Feed.linked_append.mpr ⟨_, hwindow, rfl, hlt, rfl⟩
  -- what was issued ends where the window ends
  have hend : Feed.Linked fromCursor
      throughCursor connection.baseline connection.deliveries
      batch.fromCursor := by
    have hrest := h.window
    rw [← houtstanding, Feed.linked_map, ← hfrom] at hrest
    rw [hdeliveries, Feed.linked_append]
    exact ⟨state.acknowledgedCursor, hsettled, hrest⟩
  refine ⟨?_, ?_, fun hnone => ?_, fun connection' hconnection' => ?_⟩
  · exact SubscriptionState.window_of_linked hwindow
  · rw [length_append]
    exact hroom
  · rw [hlast] at hnone
    cases hnone
  · rw [hlast, Option.mem_some_iff] at hconnection'
    subst hconnection'
    refine ⟨⟨_, hend.concat hlt⟩, fun other hother => ?_, fun _ => ?_⟩
    · rcases mem_append.mp hother with hother | hother
      · exact hissued.carries other hother
      · rw [mem_singleton.mp hother]
        exact ⟨hsame, hcarries⟩
    · refine ⟨settled, outstanding ++ [batch], ?_, hsettled, ?_⟩
      · rw [hdeliveries, append_assoc]
      · rw [map_append, houtstanding]
        rfl

theorem Tracked.issued {before rest : List PendingDelivery} {delivery : PendingDelivery}
    (h : Tracked services log answers state) (hopen : state.status = .open)
    (hpending : state.pending = before ++ delivery :: rest) :
    ∃ connection ∈ lastConnection answers, ∃ first batch last,
      connection.deliveries = first ++ batch :: last ∧ batch.pending = delivery ∧
      last.map pending = rest ∧
      Feed.Linked fromCursor throughCursor
        connection.baseline (first ++ [batch]) delivery.throughCursor := by
  obtain ⟨connection, hconnection⟩ : ∃ connection, lastConnection answers = some connection := by
    rw [← Option.isSome_iff_exists, Option.isSome_iff_ne_none]
    intro hnone
    rw [(h.unconnected hnone).2] at hpending
    exact absurd hpending (by simp)
  obtain ⟨settled, outstanding, hdeliveries, hsettled, houtstanding⟩ :=
    (h.connection connection hconnection).outstanding hopen
  rw [hpending] at houtstanding
  obtain ⟨first, remaining, rfl, rfl, hremaining⟩ := map_eq_append_iff.mp houtstanding
  obtain ⟨batch, last, rfl, rfl, rfl⟩ := map_eq_cons_iff.mp hremaining
  refine ⟨connection, hconnection, settled ++ first, batch, last, ?_, rfl, rfl, ?_⟩
  · rw [hdeliveries, append_assoc]
  · have hwindow := h.window
    rw [hpending] at hwindow
    obtain ⟨middle, hbefore, hfrom, hlt, -⟩ := Feed.linked_append.mp hwindow
    rw [Feed.linked_map] at hbefore
    rw [append_assoc, Feed.linked_append]
    refine ⟨_, hsettled, Feed.linked_append.mpr ⟨middle, hbefore, hfrom, ?_, rfl⟩⟩
    exact hlt

theorem Tracked.acknowledged {before rest : List PendingDelivery} {delivery : PendingDelivery}
    (h : Tracked services log answers state) (hopen : state.status = .open)
    (hpending : state.pending = before ++ delivery :: rest) (lease : Nat) :
    state.acknowledgedCursor < delivery.throughCursor ∧
      Tracked services log answers { state with
        acknowledgedCursor := delivery.throughCursor, pending := rest
        leaseExpiresAtUnixMs := lease } := by
  have hwindow := h.window
  rw [hpending] at hwindow
  obtain ⟨middle, hbefore, hfrom, hlt, hrest⟩ := Feed.linked_append.mp hwindow
  have hroom := h.room
  rw [hpending, length_append, length_cons] at hroom
  refine ⟨hbefore.le.trans_lt hlt, ?_, ?_, fun hnone => ?_, fun connection hconnection => ?_⟩
  · exact SubscriptionState.window_of_linked hrest
  · show rest.length ≤ state.maxInFlight
    omega
  · rw [(h.unconnected hnone).2] at hpending
    exact absurd hpending (by simp)
  · obtain ⟨connection', hconnection', first, batch, last, hdeliveries, -, hlast, hsettled⟩ :=
      h.issued hopen hpending
    obtain rfl : connection' = connection := by
      rw [Option.mem_def] at hconnection hconnection'
      exact Option.some.inj (hconnection'.symm.trans hconnection)
    have hissued := h.connection connection' hconnection
    refine ⟨hissued.linked, hissued.carries, fun _ => ⟨first ++ [batch], last, ?_, hsettled, hlast⟩⟩
    rw [hdeliveries, append_assoc]
    rfl

theorem Tracked.renewed {lease : Nat} (h : Tracked services log answers state) :
    Tracked services log answers { state with leaseExpiresAtUnixMs := lease } where
  window := h.window
  room := h.room
  unconnected := h.unconnected
  connection connection hconnection :=
    let issued := h.connection connection hconnection
    ⟨issued.linked, issued.carries, issued.outstanding⟩

theorem Tracked.closed {closure : Option SubscriptionClosure}
    (h : Tracked services log answers state) :
    Tracked services log answers { state with status := .closed, pending := [], closure } where
  window := SubscriptionState.window_of_linked rfl
  room := Nat.zero_le _
  unconnected hnone := ⟨(h.unconnected hnone).1, rfl⟩
  connection connection hconnection :=
    let issued := h.connection connection hconnection
    ⟨issued.linked, issued.carries, nofun⟩

/-- Every move keeps the window and what was issued in step. -/
theorem Tracked.move {record' : Option (SubscriptionState L)}
    (h : Tracked services log answers state)
    (hmove : Move services log call (some state) record' answer) :
    ∃ state', record' = some state' ∧ Tracked services log (answers ++ answer.toList) state' := by
  cases hmove with
  | stay hquiet => exact ⟨state, rfl, h.uneventful hquiet⟩
  | connected _ _ hcursor => exact ⟨_, rfl, Tracked.connected hcursor⟩
  | delivered batch sequence _ hgeneration hopen hroom hsame hfrom hlt hcarries =>
    exact ⟨_, rfl, h.delivered hgeneration hopen hroom hsame hfrom hlt hcarries⟩
  | acknowledged _ hopen hpending hquiet =>
    exact ⟨_, rfl, (h.acknowledged hopen hpending _).2.uneventful hquiet⟩
  | renewed _ hquiet => exact ⟨_, rfl, h.renewed.uneventful hquiet⟩
  | closed _ hquiet => exact ⟨_, rfl, h.closed.uneventful hquiet⟩

/-- In every run, the record is in step with the answers that were given. -/
theorem tracked_of_run {world : SubscriptionWorld L}
    {threads : List ((Caller × SubscriptionCall L) × Prog (Access L)
      (fun access => Except ServiceError (access.Value D)) (SubscriptionReply D P))}
    (h : Run (subscriptionSystem services externals) world threads answers) :
    (world.record = none → lastConnection answers = none) ∧
      ∀ state, world.record = some state → Tracked services world.store.log answers state := by
  refine h.induction (P := fun world answers => (world.record = none → lastConnection answers = none) ∧
      ∀ state, world.record = some state → Tracked services world.store.log answers state)
    (keeps_program services externals) ?_ ?_ ?_
  · rintro world ⟨-, hrecord⟩
    exact ⟨fun _ => rfl, fun state hstate => by rw [hrecord] at hstate; cases hstate⟩
  · rintro world _ answers halways ⟨request, writes, hprepare, rfl⟩ ⟨hnone, hsome⟩
    obtain ⟨more, hlog⟩ := (Store.Reachable.whole halways).log_prefix_step hprepare
    exact ⟨hnone, fun state hstate => (hsome state hstate).append_log ⟨more, hlog.symm⟩⟩
  · rintro ⟨caller, call⟩ world world' answer answers _ ⟨hstore, hmove⟩ ⟨hnone, hsome⟩
    rw [hstore]
    cases hrecord : world.record with
    | none =>
      have hlast := hnone hrecord
      rw [hrecord] at hmove
      generalize hrecord' : world'.record = record' at hmove ⊢
      cases hmove with
      | stay hquiet =>
        exact ⟨fun _ => by rw [lastConnection_uneventful hquiet, hlast], nofun⟩
      | @opened opened _ _ hgeneration hpending hquiet =>
        refine ⟨nofun, fun state hstate => ?_⟩
        obtain rfl := Option.some.inj hstate
        refine Tracked.uneventful ⟨?_, ?_, fun _ => ⟨hgeneration, hpending⟩, ?_⟩ hquiet
        · have hlinked : Feed.Linked PendingDelivery.fromCursor
              PendingDelivery.throughCursor opened.acknowledgedCursor opened.pending
              opened.acknowledgedCursor := by
            rw [hpending]
            rfl
          exact SubscriptionState.window_of_linked hlinked
        · rw [hpending]
          exact Nat.zero_le _
        · rw [hlast]
          nofun
    | some state =>
      rw [hrecord] at hmove
      obtain ⟨state', hstate', htracked⟩ := (hsome state hrecord).move hmove
      rw [hstate']
      refine ⟨nofun, fun other hother => ?_⟩
      obtain rfl := Option.some.inj hother
      exact htracked

/-- What one step of a call may do to the record of a subscription. -/
structure FeedAdvance (answers : List (SubscriptionReply D P)) (call : SubscriptionCall L)
    (state state' : SubscriptionState L) (answer : Option (SubscriptionReply D P)) : Prop where
  monotone : state.acknowledgedCursor ≤ state'.acknowledgedCursor
  issued : state'.acknowledgedCursor ≠ state.acknowledgedCursor →
    ∃ connection ∈ lastConnection answers, ∃ batch ∈ connection.deliveries,
      batch.connectionGeneration = state.connectionGeneration ∧
        state'.acknowledgedCursor = batch.throughCursor
  restarts : ∀ subscription, answer = some (.ok (.connected subscription)) →
    subscription.acknowledgedCursor = state.acknowledgedCursor ∧
      state'.acknowledgedCursor = state.acknowledgedCursor ∧ state'.pending = []
  fenced : ∀ generation ∈ call.generation?, generation ≠ state.connectionGeneration → state' = state

theorem Tracked.advance (h : Tracked services log answers state)
    {record' : Option (SubscriptionState L)}
    (hmove : Move services log call (some state) record' answer) :
    ∃ state', record' = some state' ∧ FeedAdvance answers call state state' answer := by
  have hfenced : ∀ {state' : SubscriptionState L},
      call.generation? = some state.connectionGeneration →
      ∀ generation ∈ call.generation?, generation ≠ state.connectionGeneration →
        state' = state := by
    intro state' hgeneration generation hmem hne
    rw [hgeneration] at hmem
    exact absurd (Option.some.inj hmem).symm hne
  have hrestarts : ∀ {state' : SubscriptionState L}, (∀ a ∈ answer, Uneventful a) →
      ∀ subscription, answer = some (.ok (.connected subscription)) →
        subscription.acknowledgedCursor = state.acknowledgedCursor ∧
          state'.acknowledgedCursor = state.acknowledgedCursor ∧ state'.pending = [] := by
    intro state' hquiet subscription hanswer
    exact absurd (hquiet _ hanswer) id
  cases hmove with
  | stay hquiet =>
    exact ⟨state, rfl, le_rfl, fun hne => absurd rfl hne, hrestarts hquiet, fun _ _ _ => rfl⟩
  | connected hgeneration _ hcursor =>
    refine ⟨_, rfl, le_rfl, fun hne => absurd rfl hne, fun subscription hanswer => ?_,
      hfenced hgeneration⟩
    obtain rfl : _ = subscription := by simpa using hanswer
    exact ⟨hcursor, rfl, rfl⟩
  | delivered batch sequence hgeneration _ _ _ _ _ _ _ =>
    exact ⟨_, rfl, le_rfl, fun hne => absurd rfl hne, fun _ hanswer => by simp at hanswer,
      hfenced hgeneration⟩
  | acknowledged hgeneration hopen hpending hquiet =>
    refine ⟨_, rfl, (h.acknowledged hopen hpending 0).1.le, fun _ => ?_, hrestarts hquiet,
      hfenced hgeneration⟩
    obtain ⟨connection, hconnection, first, batch, last, hdeliveries, rfl, -, -⟩ :=
      h.issued hopen hpending
    have hmem : batch ∈ connection.deliveries := by simp [hdeliveries]
    exact ⟨connection, hconnection, batch, hmem,
      ((h.connection connection hconnection).carries batch hmem).1, rfl⟩
  | renewed hgeneration hquiet =>
    exact ⟨_, rfl, le_rfl, fun hne => absurd rfl hne, hrestarts hquiet, hfenced hgeneration⟩
  | closed hgeneration hquiet =>
    refine ⟨_, rfl, le_rfl, fun hne => absurd rfl hne, hrestarts hquiet, fun generation hmem => ?_⟩
    rw [hgeneration] at hmem
    cases hmem

/-- In every interleaving of requests of the store and calls of any number of clients, the
pending deliveries of a change feed are a bounded chain of intervals from the acknowledged
cursor; what was issued since the last connection are the changes of the scope from the
cursor where it began, each once and in order; and every step of a call advances the record
as it should. -/
theorem subscription_delivers {world : SubscriptionWorld L}
    {threads : List ((Caller × SubscriptionCall L) × Prog (Access L)
      (fun access => Except ServiceError (access.Value D)) (SubscriptionReply D P))}
    (h : Run (subscriptionSystem services externals) world threads answers)
    (hstate : world.record = some state) {scope : String} (hstream : state.stream = .changefeed scope) :
    Feed.Linked PendingDelivery.fromCursor PendingDelivery.throughCursor
      state.acknowledgedCursor state.pending state.deliveredCursor ∧
    state.pending.length ≤ state.maxInFlight ∧
    (∀ connection ∈ lastConnection answers, ∃ stop,
      Feed.Linked fromCursor throughCursor connection.baseline connection.deliveries stop ∧
      publicChanges services world.store.log scope connection.baseline stop =
        .ok (connection.deliveries.flatMap SubscriptionDeliveryBatch.changes)) ∧
    ∀ call access next reply world', (call, .act access next) ∈ threads →
      access.acts externals.digests world reply world' →
      ∃ state', world'.record = some state' ∧
        FeedAdvance answers call.2 state state' (next reply).answer? := by
  have htracked := (tracked_of_run h).2 state hstate
  refine ⟨htracked.window, htracked.room, fun connection hconnection => ?_, ?_⟩
  · have hissued := htracked.connection connection hconnection
    obtain ⟨stop, hlinked⟩ := hissued.linked
    exact ⟨stop, hlinked, hlinked.mapM_window fun batch hbatch =>
      ((hissued.carries batch hbatch).2 scope hstream).2⟩
  · intro call access next reply world' hthread hacts
    have hguarantee := h.guarantee (keeps_program services externals) hthread hacts
    obtain ⟨-, hmove⟩ := hguarantee
    rw [hstate] at hmove
    exact htracked.advance hmove

/-- Services of one instance, where changes are public as they are. -/
def plainServices : SubscriptionServices Empty RuntimeChange where
  «instance» := ⟨"rrd", by decide⟩
  publicRuntimeChange := .ok
  openDigest _ := Store.digestOf 1
  streamDigest _ := Store.digestOf 2
  closeDigest := Store.digestOf 3
  validateLiveQuery := nofun

def reader : Caller where
  sessionId := ⟨"reader", by decide⟩
  now := 1
  authorize _ := .ok ()
  policy _ := .ok ()

def feedScope : ScopeId := ⟨"instance:rrd", by decide⟩

def feedRequests : List Store.Request :=
  [.plain { Store.proposal 0 [.claim (Store.boilsAt "99")] with scope := feedScope },
    .plain { Store.proposal 1 [.claim (Store.boilsAt "100")] with scope := feedScope }]

def began (call : SubscriptionCall Empty) : Turn (Caller × SubscriptionCall Empty) :=
  .call (reader, call)

def inTurn (threads : List Nat) : List (Turn (Caller × SubscriptionCall Empty)) :=
  (List.replicate 6 (threads.map .step)).flatten

/-- A client opens the subscription and connects. Two calls for a delivery then take turns,
and a third one and an acknowledgement; a last call asks again for what two have not got. -/
def feedTurns : List (Turn (Caller × SubscriptionCall Empty)) :=
  began (.open ⟨"key", by decide⟩
      { subscriptionId := ⟨"feed", by decide⟩, stream := .changefeed "instance:rrd"
        afterCursor := 0, batchSize := 1, maxInFlight := 2, retentionCursorWindow := 10
        leaseMs := 1000, heartbeatIntervalMs := 100 }) :: inTurn [0] ++
    began (.connect ⟨Store.digestOf 2, 0, 0⟩) :: inTurn [1] ++
    began (.next 1) :: began (.next 1) :: inTurn [2, 3] ++
    began (.next 1) :: began (.acknowledge ⟨1, 1, 1⟩) :: inTurn [4, 5] ++
    began (.next 1) :: inTurn [6]

def feedRun (store : Store.State) : SubscriptionWorld Empty ×
    List ((Caller × SubscriptionCall Empty) × Prog (Access Empty)
      (fun access => Except ServiceError (access.Value Empty))
      (SubscriptionReply Empty RuntimeChange)) × List (SubscriptionReply Empty RuntimeChange) :=
  feedTurns.foldl ((subscriptionSystem plainServices .numbered).turn
    (Access.perform Store.Externals.numbered.digests)) (⟨store, none⟩, [], [])

theorem subscription_delivers_two : ∃ (world : SubscriptionWorld Empty) (answers : _)
    (state : SubscriptionState Empty) (connection : Connection Empty RuntimeChange),
    (∃ threads, Run (subscriptionSystem plainServices .numbered) world threads answers) ∧
    answers.map Except.isOk = [true, true, true, false, true, false, true] ∧
    world.record = some state ∧ state.pending.length = 1 ∧ state.acknowledgedCursor = 1 ∧
    lastConnection answers = some connection ∧ connection.deliveries.length = 2 ∧
    ∃ stop, publicChanges plainServices world.store.log "instance:rrd" connection.baseline stop =
      .ok (connection.deliveries.flatMap SubscriptionDeliveryBatch.changes) := by
  have hrun : (Store.run .numbered feedRequests).toOption.any (fun store =>
      (feedRun store).2.2.map Except.isOk = [true, true, true, false, true, false, true] ∧
      ((feedRun store).1.record.any fun state =>
        state.stream = .changefeed "instance:rrd" ∧ state.pending.length = 1 ∧
          state.acknowledgedCursor = 1) ∧
      (lastConnection (feedRun store).2.2).any fun connection =>
        connection.deliveries.length = 2) = true := by
    decide +kernel
  obtain ⟨store, hstore, htest⟩ := exists_ok_of_any hrun
  obtain ⟨hanswers, hrecord, hlast⟩ := of_decide_eq_true htest
  obtain ⟨state, hstate, htest⟩ := (Option.any_eq_true ..).mp hrecord
  obtain ⟨hstream, hpending, hcursor⟩ := of_decide_eq_true htest
  obtain ⟨connection, hconnection, hlength⟩ := (Option.any_eq_true ..).mp hlast
  have hthreads : Run (subscriptionSystem plainServices .numbered) (feedRun store).1
      (feedRun store).2.1 (feedRun store).2.2 := by
    unfold feedRun
    generalize feedTurns = turns
    exact run_foldl_turn (Access.acts_perform Store.Externals.numbered.digests) turns
      (.start ⟨Store.reachable_of_run hstore, rfl⟩)
  generalize feedRun store = served at *
  obtain ⟨stop, -, hchanges⟩ :=
    (subscription_delivers hthreads hstate hstream).2.2.1 connection hconnection
  exact ⟨served.1, served.2.2, state, connection, ⟨_, hthreads⟩, hanswers, hstate, hpending,
    hcursor, hconnection, of_decide_eq_true hlength, stop, hchanges⟩

end Rrflow.Engine

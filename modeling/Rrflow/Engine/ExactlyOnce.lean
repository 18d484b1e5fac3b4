import Rrflow.Engine.TransactionSpec
import Rrflow.Store.ClaimLog

/-!
Runs of an engine.

A run starts over a store that may already hold a history and serves any requests in
any surroundings, one after the other; a request may stop at every durable step. What
the ledger keeps holds at every point of every run, and what a client was told stays
true.
-/

namespace Rrflow.Engine

open Kernel Contract Checks Eff List

variable {M : Type}

variable {sessionId token transactionId : CorrelationId} {record : TransactionRecord}
  {state' : State} {receipt : CommitReceipt} {published : List Publication} {session : SessionState}

/-- A request with its surroundings, its answer and the states around it. -/
structure Exchange (M : Type) where
  env : Environment M
  request : Request M
  response : Except ServiceError Response
  before : State
  after : State

/-- The session and the transaction a request names. -/
def Request.subject : Request M → Option (CorrelationId × CorrelationId)
  | .preview sessionId _ transactionId _ _ | .commit sessionId _ transactionId _ _
  | .abort sessionId _ transactionId _ => some (sessionId, transactionId)
  | .create .. | .renew .. | .close .. | .begin_ .. => none

/-- Whom the changes belong to that a request has added to the log, if it has added any. -/
def Exchange.publication (exchange : Exchange M) : Option (CorrelationId × CorrelationId) :=
  if exchange.before.store.cursor < exchange.after.store.cursor then exchange.request.subject
  else none

/-- An engine over a store, before its first request. -/
def State.opened (store : Store.State) : State := ⟨store, .empty, .empty, .empty⟩

/-- The exchanges of an engine so far and the state they lead to. -/
inductive Served (services : Services M) (store : Store.State) :
    List (Exchange M) → State → Prop
  | start : Served services store [] (State.opened store)
  | next {trace : List (Exchange M)} {state : State} (h : Served services store trace state)
      (env : Environment M) (request : Request M) :
      Served services store
        (trace ++ [⟨env, request, (serve services env request state).1, state,
          (serve services env request state).2⟩])
        (serve services env request state).2

variable {services : Services M} {store : Store.State}

structure Acknowledged (state : State) (sessionId : CorrelationId) (receipt : CommitReceipt)
    (record : TransactionRecord) : Prop where
  found : state.record? sessionId receipt.transactionId = some record
  committed : record.lease.state = .committed
  receipt : ∃ stored, record.commitReceipt = some stored ∧
    { receipt with idempotentReplay := stored.idempotentReplay } = stored

/-- The invariant of runs: the ledger is sound, its publications are those of the
exchanges, and the receipts that were handed out are stored. -/
structure Keeps (services : Services M) (trace : List (Exchange M)) (state : State) : Prop where
  placed : Placed state
  ledger : ∃ published, (state.ledger published).Sound services ∧
    published.map Publication.key = trace.filterMap Exchange.publication
  receipts : ∀ exchange ∈ trace, ∀ receipt, exchange.response = .ok (.receipt receipt) →
    ∃ sessionId record, Acknowledged state sessionId receipt record
  records : ∀ exchange ∈ trace, ∀ sessionId transactionId record,
    exchange.after.record? sessionId transactionId = some record →
    ∃ record', state.record? sessionId transactionId = some record' ∧
      record'.read = record.read ∧ (record.lease.state ≠ .open → record' = record)
  silent : ∀ exchange ∈ trace, exchange.publication = none →
    exchange.after.store = exchange.before.store

theorem keeps_opened (hstore : Store.Reachable services.externals store) :
    Keeps services [] (State.opened store) := by
  have hnone : ∀ sessionId transactionId,
      (State.opened store).record? sessionId transactionId = none := fun _ _ => rfl
  refine ⟨⟨?_, ?_, ?_⟩, ⟨[], ⟨hstore, ?_, nodup_nil, ?_⟩, rfl⟩, ?_, ?_, ?_⟩
  · exact fun _ _ h => absurd h (by simp [State.opened])
  · exact fun _ _ _ h => absurd h (by simp [State.opened])
  · exact fun _ _ _ h => absurd h (by simp [State.opened])
  · intro sessionId transactionId record hrecord
    exact absurd ((hnone sessionId transactionId).symm.trans hrecord) (by simp)
  all_goals exact fun _ h => absurd h not_mem_nil

variable {state : State}

theorem Request.Does.ledger {request : Request M} (env : Environment M)
    (response : Except ServiceError Response) (h : request.Does services state state')
    (hplaced : Placed state) :
    Placed state' ∧ ∃ more : List Publication, (∀ published, Ledger.Steps services (state.ledger published)
      (state'.ledger (published ++ more))) ∧
      more.map Publication.key =
        (Exchange.publication ⟨env, request, response, state, state'⟩).toList ∧
      (more = [] → state'.store = state.store) := by
  simp only [Exchange.publication]
  have hquiet : Quiet services state state' → Placed state' ∧ ∃ more : List Publication,
      (∀ published, Ledger.Steps services (state.ledger published)
        (state'.ledger (published ++ more))) ∧
      more.map Publication.key = (if state.store.cursor < state'.store.cursor then
        request.subject else none).toList ∧ (more = [] → state'.store = state.store) := by
    intro hq
    refine ⟨hq.placed hplaced, [], fun published => ?_, ?_, fun _ => hq.store⟩
    · rw [append_nil]
      exact hq.steps hplaced published
    · rw [hq.store, if_neg (lt_irrefl _)]
      rfl
  cases request with
  | commit sessionId token transactionId key request =>
    obtain ⟨more, hsteps, hmore⟩ := Publishes.steps h hplaced
    refine ⟨Publishes.placed h hplaced, more, hsteps, ?_⟩
    rcases hmore with ⟨rfl, hstore⟩ | ⟨commitId, record, rfl, hlt, -, -⟩
    · rw [hstore, if_neg (lt_irrefl _)]
      exact ⟨rfl, fun _ => rfl⟩
    · rw [if_pos hlt]
      exact ⟨rfl, nofun⟩
  | _ => exact hquiet h

theorem Acknowledged.of_steps {published' : List Publication}
    (h : Acknowledged state sessionId receipt record)
    (hsteps : Ledger.Steps services (state.ledger published) (state'.ledger published')) :
    Acknowledged state' sessionId receipt record := by
  obtain ⟨record', hfound, -, hsame⟩ := hsteps.keeps h.found
  obtain rfl := hsame (by rw [h.committed]; exact nofun)
  exact ⟨hfound, h.committed, h.receipt⟩

variable {env : Environment M}

theorem acknowledged_of_serve {request : Request M}
    (h : (serve services env request state).1 = .ok (.receipt receipt)) (hplaced : Placed state)
    (hsound : (state.ledger published).Sound services) :
    ∃ sessionId record, Acknowledged (serve services env request state).2 sessionId receipt
      record := by
  obtain ⟨response, state', hrun⟩ : ∃ response state', serve services env request state =
    (response, state') := ⟨_, _, rfl⟩
  rw [hrun] at h ⊢
  subst h
  cases request with
  | commit sessionId token transactionId key request =>
    change (commitTransaction services env sessionId token transactionId key request >>=
      fun receipt => pure (Response.receipt receipt)) state = _ at hrun
    have hwp : wp (commitTransaction services env sessionId token transactionId key request >>=
        fun receipt => pure (Response.receipt receipt))
        (fun response state' => ∃ held, response = .receipt held ∧
          Publishes services sessionId transactionId state state' ∧ ∃ record intent,
            Receipted state' sessionId transactionId key request.operationSha256 held record intent)
        (fun _ _ => True) state := by
      exact wp_then wp_commitTransaction (fun held _ h => ⟨held, rfl, h⟩) fun _ _ _ => trivial
    obtain ⟨held, heq, hpublishes, record, intent, hreceipted⟩ := wp_eq hwp hrun
    obtain rfl := Response.receipt.inj heq
    have hfound := hreceipted.found (hpublishes.placed hplaced)
    -- the receipt names the transaction, since the stored one does
    obtain ⟨more, hsteps, -⟩ := hpublishes.steps hplaced
    have hsettled := (hsound.steps (hsteps published)).settled _ _ _ hfound
    obtain ⟨stored, hstored, hsame⟩ := hreceipted.receipt
    obtain ⟨_, outcome, replay, -, -, hreceipt⟩ := hsettled.committed hreceipted.committed
    obtain rfl := Option.some.inj (hstored.symm.trans hreceipt)
    have hid : receipt.transactionId = transactionId :=
      congrArg CommitReceipt.transactionId hsame
    exact ⟨sessionId, record, hid ▸ hfound, hreceipted.committed, _, hstored, hsame⟩
  | _ =>
    -- no other request answers with a receipt
    simp only [serve] at hrun
    have hne : ∀ {α : Type} (x : Serve α) (f : α → Response),
        (∀ a, f a ≠ .receipt receipt) →
        (x >>= fun a => pure (f a)) state ≠ (.ok (.receipt receipt), state') := by
      intro α x f hf heq
      have hwp : wp (x >>= fun a => pure (f a)) (fun response _ => response ≠ .receipt receipt)
          (fun _ _ => True) state := by
        exact wp_then (wp_trivial x) (fun a _ _ => hf a) fun _ _ _ => trivial
      exact wp_eq hwp heq rfl
    exact (hne _ _ nofun hrun).elim

theorem Served.keeps {trace : List (Exchange M)} (hstore : Store.Reachable services.externals store)
    (h : Served services store trace state) : Keeps services trace state := by
  induction h with
  | start => exact keeps_opened hstore
  | @next trace state _ env request ih =>
    obtain ⟨published, hsound, hpublished⟩ := ih.ledger
    obtain ⟨response, state', hrun⟩ : ∃ response state', serve services env request state =
      (response, state') := ⟨_, _, rfl⟩
    have hdoes : request.Does services state state' := by
      have hwp := wp_eq (serve_does env request state) hrun
      cases response <;> exact hwp
    rw [hrun]
    obtain ⟨hplaced, more, hsteps, hmore, hsilent⟩ := hdoes.ledger env response ih.placed
    refine ⟨hplaced, ⟨published ++ more, hsound.steps (hsteps published), ?_⟩, ?_, ?_, ?_⟩
    · rw [map_append, hpublished, hmore, filterMap_append]
      cases hnew : Exchange.publication ⟨env, request, response, state, state'⟩ <;> simp [hnew]
    · intro exchange hmem receipt hreceipt
      rcases mem_append.mp hmem with hold | hnew
      · obtain ⟨sessionId, record, hack⟩ := ih.receipts exchange hold receipt hreceipt
        exact ⟨sessionId, record, hack.of_steps (hsteps published)⟩
      · obtain rfl := mem_singleton.mp hnew
        have hanswer : (Engine.serve services env request state).1 = .ok (.receipt receipt) := by
          rw [hrun]
          exact hreceipt
        have hack := acknowledged_of_serve hanswer ih.placed hsound
        rw [hrun] at hack
        exact hack
    · intro exchange hmem sessionId transactionId record hrecord
      rcases mem_append.mp hmem with hold | hnew
      · obtain ⟨middle, hmiddle, hread, hsame⟩ :=
          ih.records exchange hold sessionId transactionId record hrecord
        obtain ⟨record', hrecord', hread', hsame'⟩ := (hsteps published).keeps hmiddle
        refine ⟨record', hrecord', hread'.trans hread, fun hclosed => ?_⟩
        obtain rfl := hsame hclosed
        exact hsame' hclosed
      · obtain rfl := mem_singleton.mp hnew
        exact ⟨record, hrecord, rfl, fun _ => rfl⟩
    · intro exchange hmem hnone
      rcases mem_append.mp hmem with hold | hnew
      · exact ih.silent exchange hold hnone
      · obtain rfl := mem_singleton.mp hnew
        rw [hnone] at hmore
        exact hsilent (map_eq_nil_iff.mp hmore)

/-! ### Exactly once -/

/-- A commit request that passes everything that is checked before its transaction is
looked at. -/
structure Admits (services : Services M) (env : Environment M) (state : State)
    (sessionId token : CorrelationId) (request : CommitTransaction M) (session : SessionState) :
    Prop where
  valid : request.validate services.validMutation = .ok ()
  gate : env.admission = .ok ()
  digest : services.operationSha256 request.mutations = request.operationSha256
  stored : state.sessions.find? sessionId = some session
  authentic : session.tokenSha256 = services.sha256Hex token.val
  policy : env.policy session .transactionCommit = .ok ()
  vectors : env.vectors request.mutations = .ok ()

section Passing

variable {α β : Type} {f : α → Serve β} {Q : β → State → Prop} {E : ServiceError → State → Prop}
  {state : State}

theorem wp_require_of {c : Prop} [Decidable c] {error : ServiceError} {f : Unit → Serve β}
    (hc : c) (h : wp (f ()) Q E state) : wp (require c error >>= f) Q E state := by
  rw [wp_bind, require, if_pos hc]
  exact h

theorem wp_except_of {x : Except ServiceError α} {a : α} (hx : x = .ok a)
    (h : wp (f a) Q E state) : wp (ofExcept x >>= f) Q E state := by
  rw [wp_bind, hx]
  exact h

theorem wp_orFail_of {x : Option α} {error : ServiceError} {a : α} (hx : x = some a)
    (h : wp (f a) Q E state) : wp (orFail x error >>= f) Q E state := by
  rw [wp_bind, hx]
  exact h

end Passing

theorem wp_loadAuthenticated_of (hplaced : Placed state)
    (hstored : state.sessions.find? sessionId = some session)
    (hauthentic : session.tokenSha256 = services.sha256Hex token.val) :
    wp (loadAuthenticated services sessionId token)
      (fun found state' => found = session ∧ state' = state) (fun _ _ => False) state := by
  obtain ⟨-, hformat, hterminal⟩ := hplaced.session _ _ hstored
  unfold loadAuthenticated loadSession decodeSession
  rw [wp_bind, wp_bind, wp_get]
  refine wp_orFail_of hstored (wp_require_of hformat (wp_require_of hterminal ?_))
  exact wp_require_of hauthentic ⟨rfl, rfl⟩

theorem wp_transactionRecord_of_settled (hplaced : Placed state)
    (hsession : state.sessions.find? sessionId = some session)
    (hrecord : state.record? sessionId transactionId = some record)
    (hsettled : Settled services state.store sessionId transactionId record) :
    wp (transactionRecord session transactionId)
      (fun found state' => found = some record ∧ state' = state) (fun _ _ => False) state := by
  have hid := (hplaced.session _ _ hsession).1
  rw [State.record?, hsession, Option.bind_some] at hrecord
  unfold transactionRecord
  rw [wp_bind, wp_get]
  cases hin : session.transactions.find? transactionId with
  | some found =>
    rw [hin] at hrecord
    exact ⟨hrecord, rfl⟩
  | none =>
    rw [hin, Option.none_or] at hrecord
    obtain ⟨terminal, hterminal, rfl⟩ := Option.map_eq_some_iff.mp hrecord
    obtain ⟨hformat, hclosed⟩ := hplaced.terminal _ _ _ hterminal
    rw [hid, hterminal]
    exact wp_require_of ⟨hformat, hsettled.session, hsettled.transaction, hclosed⟩ ⟨rfl, rfl⟩

/-- A retry of an accepted commit gives the stored receipt. -/
theorem commitTransaction_replay {key : CorrelationId} {request : CommitTransaction M}
    {intent : CommitIntent} {stored : CommitReceipt} (hplaced : Placed state)
    (hadmits : Admits services env state sessionId token request session)
    (hrecord : state.record? sessionId transactionId = some record)
    (hsettled : Settled services state.store sessionId transactionId record)
    (hcommitted : record.lease.state = .committed) (hintent : record.commitIntent = some intent)
    (hstored : record.commitReceipt = some stored)
    (hsame : intent.idempotencyKey = key ∧ intent.operationSha256 = request.operationSha256) :
    commitTransaction services env sessionId token transactionId key request state =
      (.ok { stored with idempotentReplay := true }, state) := by
  suffices hwp : wp (commitTransaction services env sessionId token transactionId key request)
      (fun receipt state' => receipt = { stored with idempotentReplay := true } ∧ state' = state)
      (fun _ _ => False) state by
    rcases hrun : commitTransaction services env sessionId token transactionId key request state with
      ⟨response, state'⟩
    have hresult := wp_eq hwp hrun
    cases response with
    | error error => exact hresult.elim
    | ok receipt =>
      obtain ⟨rfl, rfl⟩ := hresult
      rfl
  unfold commitTransaction acceptCommit
  rw [wp_bind]
  refine wp_except_of (congrArg (Except.mapError _) hadmits.valid) (wp_except_of hadmits.gate
    (wp_require_of hadmits.digest ?_))
  refine wp_seq (wp_loadAuthenticated_of hplaced hadmits.stored hadmits.authentic) ?_
  rintro _ _ ⟨rfl, rfl⟩
  refine wp_except_of hadmits.policy (wp_except_of hadmits.vectors ?_)
  refine wp_seq (wp_transactionRecord_of_settled hplaced hadmits.stored hrecord hsettled) ?_
  rintro _ _ ⟨rfl, rfl⟩
  refine wp_orFail_of rfl (wp_require_of ?_ ?_)
  · intro prepared hprepared
    exact (hsettled.prepared intent hintent prepared hprepared).trans hsame.2
  · rw [if_pos hcommitted]
    exact wp_orFail_of hintent (wp_require_of hsame (wp_orFail_of hstored ⟨rfl, rfl⟩))

/-- A transaction whose commit is in the store answers only to the key and the digest of
its intent, always with the same receipt, and nothing is published for it again. -/
theorem answer_of_accepted {key : CorrelationId}
    {request : CommitTransaction M} {intent : CommitIntent} {outcome : RuntimeCommitOutcome}
    (hplaced : Placed state) (hsound : (state.ledger published).Sound services)
    (hrecord : state.record? sessionId transactionId = some record)
    (hintent : record.commitIntent = some intent)
    (hfound : state.store.commits.find? intent.runtimeCommitSha256 = some outcome)
    (hrun : commitTransaction services env sessionId token transactionId key request state =
      (.ok receipt, state')) :
    intent.idempotencyKey = key ∧ intent.operationSha256 = request.operationSha256 ∧
      { receipt with idempotentReplay := true } =
        runtimeReceipt transactionId intent.operationSha256 outcome true ∧
      state'.store = state.store := by
  obtain ⟨hpublishes, record', intent', hreceipted⟩ := wp_eq wp_commitTransaction hrun
  obtain ⟨more, hsteps, hmore⟩ := hpublishes.steps hplaced
  have hrecord' := hreceipted.found (hpublishes.placed hplaced)
  obtain ⟨⟨kept, hkept, hsame⟩, hstill, hnone⟩ :=
    (hsteps []).keeps_published hrecord hintent hfound
  obtain rfl := Option.some.inj (hkept.symm.trans hrecord')
  obtain rfl := Option.some.inj (hsame.symm.trans hreceipted.intended)
  refine ⟨hreceipted.accepted.1, hreceipted.accepted.2, ?_, ?_⟩
  · obtain ⟨stored, hstored, hequal⟩ := hreceipted.receipt
    have hsettled := (hsound.steps (hsteps published)).settled _ _ _ hrecord'
    obtain ⟨found, outcome', replay, hfound', hcommit, hreceipt⟩ :=
      hsettled.committed hreceipted.committed
    obtain rfl := Option.some.inj (hfound'.symm.trans hsame)
    obtain rfl := Option.some.inj (hcommit.symm.trans hstill)
    obtain rfl := Option.some.inj (hstored.symm.trans hreceipt)
    exact congrArg (fun receipt : CommitReceipt => { receipt with idempotentReplay := true }) hequal
  · rcases hmore with ⟨-, hstore⟩ | ⟨commitId, _, rfl, -⟩
    · exact hstore
    · exact absurd (hnone ⟨sessionId, transactionId, commitId⟩ (by simp [State.ledger]) rfl)
        not_mem_nil

/-- The exchanges of some requests and the state after them. -/
def runFrom (services : Services M) : State → List (Environment M × Request M) →
    List (Exchange M) × State
  | state, [] => ([], state)
  | state, (env, request) :: rest =>
    let result := serve services env request state
    let later := runFrom services result.2 rest
    (⟨env, request, result.1, state, result.2⟩ :: later.1, later.2)

theorem Served.runFrom {trace : List (Exchange M)} (h : Served services store trace state)
    (calls : List (Environment M × Request M)) :
    Served services store (trace ++ (Engine.runFrom services state calls).1)
      (Engine.runFrom services state calls).2 := by
  induction calls generalizing trace state with
  | nil => simpa [Engine.runFrom] using h
  | cons call rest ih =>
    have hrest := ih (h.next call.1 call.2)
    rwa [append_assoc] at hrest

/-- A text as an identity, if it is one. -/
def correlation (value : String) : CorrelationId :=
  if h : isCorrelationId value = true then ⟨value, h⟩ else ⟨"-", by decide⟩

theorem main_canonical : isCanonicalId "main" = true := by decide

/-- An engine for short runs: identities are readable, the public mutations are claims,
and nothing is refused. -/
def Services.plain : Services Claim where
  externals := .numbered
  «instance» := ⟨"main", main_canonical⟩
  keyedId := fun start parts => correlation ("-".intercalate (start :: parts))
  sha256Hex := id
  createDigest := fun _ => ""
  renewDigest := ""
  closeDigest := ""
  beginDigest := fun _ _ => ""
  abortDigest := ""
  operationSha256 := fun mutations => Store.digestOf mutations.length
  validMutation := fun _ => .ok ()
  runtimeMutation := fun claim _ => .ok (.claim claim)
  admitsControl := fun _ _ => .ok ()

/-- Surroundings in which everything is allowed. -/
def Environment.at_ (now : Nat) : Environment Claim where
  now := now
  admission := .ok ()
  policy := fun _ _ => .ok ()
  vectors := fun _ => .ok ()
  catalogue := .ok ⟨0, []⟩
  catalogueRevision := fun _ => .ok ⟨0, []⟩
  snapshot := fun _ => .ok ()
  fate := .accepted
  crash := none

def Environment.crashing (now : Nat) (point : Boundary) : Environment Claim :=
  { Environment.at_ now with crash := some point }

def claimed : Claim := Store.boilsAt "100"

def client : CorrelationId := correlation "session-client"

def clientToken : CorrelationId := correlation "token-session-client-0"

def transactionOf (key : String) : CorrelationId := correlation ("transaction-session-client-" ++ key)

def context (key : String) : RequestContext :=
  { requestId := correlation "request", operationId := correlation "operation"
    idempotencyKey := some (correlation key), deadlineUnixMs := none }

def createRequest : Request Claim :=
  .create none none ⟨⟨1000, 3600000, 4⟩⟩ (correlation "client")

def beginRequest (key : String) : Request Claim :=
  .begin_ client clientToken ⟨⟨"data", by decide⟩, 60000⟩ (context key) none

def commitRequest (transaction key : String) : Request Claim :=
  .commit client clientToken (transactionOf transaction) (correlation key)
    { operationSha256 := Store.digestOf 1, mutations := [claimed] }

/-- A commit that stops twice on its way and is taken up again. -/
def interrupted : List (Environment Claim × Request Claim) :=
  [(.at_ 10, createRequest), (.at_ 11, beginRequest "a"),
    (.crashing 12 .intentPersisted, commitRequest "a" "k"),
    (.crashing 13 .runtimeCommitted, commitRequest "a" "k"),
    (.at_ 14, commitRequest "a" "other"), (.at_ 15, commitRequest "a" "k")]

end Rrflow.Engine

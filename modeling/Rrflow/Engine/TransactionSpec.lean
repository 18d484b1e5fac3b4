import Rrflow.Engine.SessionSpec

/-!
Every request is a sequence of steps of the ledger.

Begin, preview and abort only write the session. A commit writes the session, may
publish one runtime commit, and writes the session again; wherever it ends, by an error
or by a crash, it has taken some of these steps.
-/

namespace Rrflow.Engine

open Kernel Contract Checks Eff SortedMap

variable {M : Type} {services : Services M}

variable {key token : CorrelationId} {commit : RuntimeCommit} {record : TransactionRecord}
  {intent : CommitIntent} {session : SessionState} {operationSha256 : String}
  {pending : PendingCommit} {at_ : Nat} {read : ReadStamp}

theorem wp_transactionRecord {R : State → State → Prop} [Std.Refl R] {state : State}
    {transactionId : CorrelationId} :
    wp (transactionRecord session transactionId)
      (fun found state' => state' = state ∧
        found = (session.transactions.find? transactionId).or
          ((state.terminals.find? (transactionKey session.sessionId transactionId)).map (·.record)) ∧
        ∀ record, found = some record → record.lease.state = .open →
          session.transactions.find? transactionId = some record)
      (fun _ => R state) state := by
  unfold transactionRecord
  rw [wp_bind, wp_get]
  cases hrecord : session.transactions.find? transactionId with
  | some record => exact ⟨rfl, rfl, fun _ heq _ => heq⟩
  | none =>
    cases hterminal : state.terminals.find? (transactionKey session.sessionId transactionId) with
    | none =>
      exact ⟨rfl, rfl, fun _ heq => absurd heq nofun⟩
    | some terminal =>
      refine wp_require fun hvalid => ⟨rfl, rfl, ?_⟩
      intro record heq hopen
      obtain rfl := Option.some.inj heq
      exact absurd hopen hvalid.2.2.2

theorem preserves_contextKey (context : RequestContext) (message : String) :
    Preserves (Quiet services) (contextKey context message) :=
  (preserves_checked _).bind fun _ => preserves_orFail _ _

variable {sessionId transactionId : CorrelationId} {state : State}

theorem Succeeds.begin_ {expected : SessionState} (hsame : Same expected session)
    (htransactions : session.transactions = expected.transactions.insert transactionId record)
    (hnone : expected.transactions.find? transactionId = none)
    (hterminal : state.terminals.find? (transactionKey sessionId transactionId) = none)
    (hfresh : Fresh services state.store sessionId transactionId record) :
    Succeeds services state sessionId expected session :=
  .insert hsame htransactions (hnone ▸ .begin_ hfresh) fun _ => hterminal

variable (env : Environment M)

theorem preserves_beginTransaction (sessionId token : CorrelationId) (request : BeginTransaction)
    (context : RequestContext) (intentSha256 : Option String) : Preserves (Quiet services)
      (beginTransaction services env sessionId token request context intentSha256) := by
  refine (preserves_contextKey _ _).bind fun key => (preserves_checked _).bind fun _ => ?_
  refine (preserves_require _ _).bind fun _ => (preserves_ofExcept _).bind fun _ => ?_
  refine fun state => wp_reads wp_loadAuthenticated fun session hfind => wp_except fun _ _ =>
    wp_reads wp_transactionRecord fun found hfound => ?_
  cases found with
  | some existing =>
    exact ((preserves_require _ _).bind fun _ => preserves_pure _) _
  | none =>
    obtain ⟨hnone, hterminal⟩ := Option.or_eq_none_iff.mp hfound.1.symm
    rw [Option.map_eq_none_iff] at hterminal
    refine wp_reads wp_requireActiveOrExpire fun _ _ => wp_require fun _ =>
      wp_reads wp_checkedTime fun _ _ => wp_except fun scope hscope => ?_
    rw [wp_bind, wp_get]
    refine wp_stored fun read hread => wp_seq wp_replaceSession ?_
    rintro _ _ ⟨-, rfl, -⟩
    refine Succeeds.quiet (fun hplaced => ?_) hfind
    rw [(hplaced.session _ _ hfind).1] at hterminal
    exact .begin_ ⟨rfl, rfl, rfl⟩ rfl hnone hterminal ⟨rfl, rfl, rfl, ⟨scope, hscope, hread⟩, rfl⟩

theorem wp_authorize {env : Environment M} {sessionId : CorrelationId} {action : SecurityAction} :
    wp (authorize services env sessionId token action)
      (fun session state' => state' = state ∧ state.sessions.find? sessionId = some session)
      (fun _ => Quiet services state) state :=
  wp_reads wp_loadAuthenticated fun _ hfind => wp_reads wp_requireActiveOrExpire fun _ _ =>
    wp_except fun _ _ => ⟨rfl, hfind⟩

theorem preserves_abortTransaction (sessionId token transactionId : CorrelationId)
    (context : RequestContext) : Preserves (Quiet services)
      (abortTransaction services env sessionId token transactionId context) := by
  refine (preserves_contextKey _ _).bind fun key => (preserves_ofExcept _).bind fun _ => ?_
  refine fun state => wp_reads wp_authorize fun session _ => wp_reads wp_transactionRecord
    fun found hfound => wp_orFail fun record hrecord => ?_
  cases hstate : record.lease.state with
  | «open» =>
    have hput := hfound.2 record hrecord hstate
    refine wp_require fun hintent => wp_cond (fun _ => ?_) fun _ => ?_
    · refine ((preserves_replaceSession fun state _ => ?_).bind fun _ => preserves_fail _) _
      exact .put ⟨rfl, rfl, rfl⟩ rfl hput (.finish .expired record.abort hstate hintent (.inr rfl))
    · refine ((preserves_replaceSession fun state _ => ?_).bind fun _ => preserves_pure _) _
      exact .put ⟨rfl, rfl, rfl⟩ rfl hput (.finish .aborted _ hstate hintent (.inl rfl))
  | aborted =>
    exact ((preserves_orFail _ _).bind fun _ => (preserves_require _ _).bind fun _ =>
      preserves_pure _) _
  | expired => exact Quiet.refl _
  | committed => exact Quiet.refl _

theorem preserves_previewTransaction (sessionId token transactionId : CorrelationId)
    (request : PreviewTransaction M) (context : RequestContext) : Preserves (Quiet services)
      (previewTransaction services env sessionId token transactionId request context) := by
  refine (preserves_contextKey _ _).bind fun key => (preserves_checked _).bind fun _ => ?_
  refine (preserves_ofExcept _).bind fun _ => ?_
  refine fun state => wp_reads wp_authorize fun session _ => wp_reads wp_transactionRecord
    fun found hfound => wp_orFail fun record hrecord => wp_require fun hopen => ?_
  have hput := hfound.2 record hrecord hopen
  refine wp_require fun hintent => wp_cond (fun _ => ?_) fun _ => ?_
  · refine ((preserves_replaceSession fun state _ => ?_).bind fun _ => preserves_fail _) _
    exact .put ⟨rfl, rfl, rfl⟩ rfl hput (.finish .expired record.abort hopen hintent (.inr rfl))
  · refine ((preserves_require _ _).bind fun _ => (preserves_require _ _).bind fun _ =>
      (preserves_ofExcept _).bind fun _ => (preserves_ofExcept _).bind fun _ =>
      (preserves_ofExcept _).bind fun _ => (preserves_ofExcept _).bind fun _ => ?_) _
    cases record.prepared with
    | some prepared => exact preserves_pure _
    | none =>
      refine (preserves_replaceSession fun state _ => ?_).bind fun _ => preserves_pure _
      exact .put ⟨rfl, rfl, rfl⟩ rfl hput (.prepare _ hopen hintent)

/-! ### The intent of a commit -/

theorem coreContract_eq_ok {α : Type} {x : Except Kernel.Error α} {a : α} :
    coreContract x = .ok a ↔ x = .ok a := by
  cases x with
  | error error => exact ⟨nofun, nofun⟩
  | ok b => exact ⟨fun h => congrArg _ (Except.ok.inj h), fun h => congrArg _ (Except.ok.inj h)⟩

variable {request : CommitTransaction M} {transactionId : CorrelationId}

structure Pends (services : Services M) (state : State) (sessionId transactionId key : CorrelationId)
    (operationSha256 : String) (pending : PendingCommit) (intent : CommitIntent) : Prop where
  stored : state.sessions.find? sessionId = some pending.session
  record : pending.session.transactions.find? transactionId = some pending.record
  isOpen : pending.record.lease.state = .open
  intended : pending.record.commitIntent = some intent
  accepted : intent.idempotencyKey = key ∧ intent.operationSha256 = operationSha256

theorem find?_retained_put (hopen : record.lease.state = .open) :
    (session.put transactionId record).retained.transactions.find? transactionId = some record := by
  have hfind : (session.put transactionId record).transactions.find? transactionId = some record :=
    find?_insert_self ..
  rw [SessionState.find?_retained, if_neg, hfind]
  intro hleaves
  obtain ⟨entry, hterminal, rfl⟩ := Option.map_eq_some_iff.mp hleaves
  obtain ⟨hother, hclosed⟩ := SessionState.find?_of_terminal hterminal
  obtain rfl := Option.some.inj (hother.symm.trans hfind)
  exact hclosed hopen

theorem wp_persistIntent {env : Environment M}
    (hprevious : ∀ prepared ∈ record.prepared, prepared.operationSha256 = request.operationSha256)
    (hrecord : session.transactions.find? transactionId = some record)
    (hopen : record.lease.state = .open) (hintent : record.commitIntent = none) :
    wp (persistIntent services env sessionId transactionId key request session record)
      (fun pending state' => Quiet services state state' ∧ ∃ intent,
        Pends services state' sessionId transactionId key request.operationSha256 pending intent)
      (fun _ => Quiet services state) state := by
  refine wp_reads wp_requireActiveOrExpire fun _ _ => ?_
  rw [wp_bind]
  refine wp_cond (fun _ => ?_) fun _ => ?_
  · rw [wp_bind]
    refine (preserves_replaceSession fun state _ => ?_).wp (fun _ _ h => h) fun _ _ h => h
    exact .put ⟨rfl, rfl, rfl⟩ rfl hrecord (.finish .expired record.abort hopen hintent (.inr rfl))
  · rw [wp_pure]
    refine wp_require fun _ => wp_except fun catalogue _ => wp_except fun _ _ =>
      wp_except fun commit _ => wp_except fun prepared _ => wp_seq wp_replaceSession ?_
    rintro _ _ ⟨rfl, rfl, hfind, -⟩
    refine ⟨Succeeds.quiet (fun _ => ?_) hfind, _, find?_insert_self .., find?_retained_put hopen,
      hopen, rfl, rfl, rfl⟩
    exact .put ⟨rfl, rfl, rfl⟩ rfl hrecord (.intend _ hopen hintent hprevious)

/-- The receipt of a transaction whose commit was accepted before. -/
structure Replayed (state : State) (sessionId transactionId key : CorrelationId)
    (operationSha256 : String) (receipt : CommitReceipt) (record : TransactionRecord)
    (intent : CommitIntent) : Prop where
  found : Placed state → state.record? sessionId transactionId = some record
  committed : record.lease.state = .committed
  intended : record.commitIntent = some intent
  accepted : intent.idempotencyKey = key ∧ intent.operationSha256 = operationSha256
  receipt : ∃ stored, record.commitReceipt = some stored ∧
    receipt = { stored with idempotentReplay := true }

theorem wp_acceptCommit {env : Environment M} :
    wp (acceptCommit services env sessionId token transactionId key request)
      (fun accepted state' => match accepted with
        | .inl receipt => state' = state ∧ ∃ record intent,
            Replayed state sessionId transactionId key request.operationSha256 receipt record intent
        | .inr pending => Quiet services state state' ∧ ∃ intent,
            Pends services state' sessionId transactionId key request.operationSha256 pending intent)
      (fun _ => Quiet services state) state := by
  refine wp_except fun _ _ => wp_except fun _ _ => wp_require fun _ =>
    wp_reads wp_loadAuthenticated fun session hfind => wp_except fun _ _ => wp_except fun _ _ =>
    wp_reads wp_transactionRecord fun found hfound => wp_orFail fun record hrecord =>
    wp_require fun hprevious => wp_cond (fun hcommitted => ?_) fun _ => ?_
  · refine wp_orFail fun intent hintent => wp_require fun hsame =>
      wp_orFail fun receipt hreceipt =>
      ⟨rfl, record, intent, ?_, hcommitted, hintent, hsame, receipt, hreceipt, rfl⟩
    intro hplaced
    rw [← hrecord, hfound.1, State.record?, hfind, Option.bind_some, (hplaced.session _ _ hfind).1]
  · refine wp_require fun hopen => ?_
    have hput := hfound.2 record hrecord hopen
    cases hintent : record.commitIntent with
    | some intent =>
      refine wp_require fun hsame => ?_
      exact ⟨Quiet.refl _, intent, hfind, hput, hopen, hintent, hsame⟩
    | none => exact wp_seq (wp_persistIntent hprevious hput hopen hintent) fun _ _ h => h

/-! ### The runtime commit -/

/-- Some records go on, and the transaction may publish a runtime commit. -/
structure Publishes (services : Services M) (sessionId transactionId : CorrelationId)
    (state state' : State) : Prop where
  placed : Placed state → Placed state'
  steps : Placed state → ∃ more, (∀ published,
      Ledger.Steps services (state.ledger published) (state'.ledger (published ++ more))) ∧
    (more = [] ∧ state'.store = state.store ∨
      ∃ commitId record, more = [⟨sessionId, transactionId, commitId⟩] ∧
        state.store.cursor < state'.store.cursor ∧
        state'.record? sessionId transactionId = some record ∧
        record.read.commitCursor = state.store.cursor)

section Publishes

variable {sessionId transactionId : CorrelationId} {state state' state'' : State}

theorem Quiet.publishes (h : Quiet services state state') :
    Publishes services sessionId transactionId state state' where
  placed := h.placed
  steps := by
    intro hplaced
    refine ⟨[], fun published => ?_, .inl ⟨rfl, h.store⟩⟩
    rw [List.append_nil]
    exact h.steps hplaced published

instance : Std.Refl (Publishes services sessionId transactionId) :=
  ⟨fun state => (Quiet.refl state).publishes⟩

theorem Quiet.trans_publishes (h : Quiet services state state')
    (h' : Publishes services sessionId transactionId state' state'') :
    Publishes services sessionId transactionId state state'' where
  placed := fun hplaced => h'.placed (h.placed hplaced)
  steps := by
    intro hplaced
    obtain ⟨more, hsteps, hmore⟩ := h'.steps (h.placed hplaced)
    rw [h.store] at hmore
    exact ⟨more, fun published => (h.steps hplaced published).trans (hsteps published), hmore⟩

theorem Publishes.trans_quiet (h : Publishes services sessionId transactionId state state')
    (h' : Quiet services state' state'') :
    Publishes services sessionId transactionId state state'' where
  placed := fun hplaced => h'.placed (h.placed hplaced)
  steps := by
    intro hplaced
    obtain ⟨more, hsteps, hmore⟩ := h.steps hplaced
    have hmoves := h'.steps (h.placed hplaced)
    refine ⟨more, fun published => (hsteps published).trans (hmoves _), ?_⟩
    rw [← h'.store] at hmore
    rcases hmore with hnothing | ⟨commitId, record, hmore, hlt, hrecord, hread⟩
    · exact .inl hnothing
    · obtain ⟨record', hrecord', hread', -⟩ := (hmoves []).keeps hrecord
      exact .inr ⟨commitId, record', hmore, hlt, hrecord', hread' ▸ hread⟩

end Publishes

/-- The store either does what was prepared or nothing. -/
theorem wp_publishCommit {env : Environment M} {receipts : List FunctionInvocationReceipt} :
    wp (publishCommit services env read commit receipts)
      (fun reported state' =>
        (state' = state ∧ ∃ error, reported = .error error) ∨
        ∃ outcome writes invocations,
          Store.prepareSemanticCommit services.externals state.store commit (some read) none =
            .ok (outcome, writes) ∧
          state' = { state with store := state.store.applyAll writes, invocations } ∧
          ∀ accepted, reported = .ok accepted → accepted = outcome)
      (fun _ _ => False) state := by
  unfold publishCommit
  rw [wp_bind, wp_get]
  cases hprepare : Store.prepareSemanticCommit services.externals state.store commit (some read)
      none with
  | error early =>
    exact .inl ⟨rfl, early, rfl⟩
  | ok prepared =>
    obtain ⟨outcome, writes⟩ := prepared
    cases hreceipts : encodeFunctionInvocationReceipts state.invocations outcome.commitId
        receipts with
    | error error =>
      simp only [bind, Except.bind, hreceipts]
      exact .inl ⟨rfl, error, rfl⟩
    | ok invocations =>
      simp only [bind, Except.bind, hreceipts, pure, Except.pure]
      cases hfate : env.fate with
      | accepted => exact .inr ⟨outcome, writes, invocations, rfl, rfl, fun _ h => (Except.ok.inj h).symm⟩
      | refused error => exact .inl ⟨rfl, error, rfl⟩
      | obscured error => exact .inr ⟨outcome, writes, invocations, rfl, rfl, nofun⟩

theorem Pends.record?_eq
    (h : Pends services state sessionId transactionId key operationSha256 pending intent) :
    state.record? sessionId transactionId = some pending.record := by
  rw [State.record?, h.stored, Option.bind_some, h.record]
  rfl

theorem Pends.publishes
    (h : Pends services state sessionId transactionId key operationSha256 pending intent)
    {outcome : RuntimeCommitOutcome} {writes : List Store.Write}
    (invocations : SortedMap CorrelationId FunctionInvocationReceipt)
    (hdigest : services.externals.digests.commit commit = intent.runtimeCommitSha256)
    (habsent : state.store.commits.find? intent.runtimeCommitSha256 = none)
    (hcursor : pending.record.read.commitCursor = commit.expectedCursor)
    (hprepare : Store.prepareSemanticCommit services.externals state.store commit
      (some pending.record.read) none = .ok (outcome, writes)) :
    Publishes services sessionId transactionId state
        { state with store := state.store.applyAll writes, invocations } ∧
      (state.store.applyAll writes).commits.find? intent.runtimeCommitSha256 = some outcome := by
  obtain ⟨_, _, _, _, haccepted⟩ := Store.prepareSemanticCommit_eq_ok hprepare
  refine ⟨⟨fun hplaced => ⟨hplaced.session, hplaced.apart, hplaced.terminal⟩, fun _ => ?_⟩, ?_⟩
  · refine ⟨[⟨sessionId, transactionId, intent.runtimeCommitSha256⟩], fun published => ?_,
      .inr ⟨_, pending.record, rfl, ?_, h.record?_eq, hcursor.trans haccepted.expected.symm⟩⟩
    · exact .single (.publish h.record?_eq h.intended hdigest habsent hcursor hprepare)
    · have hlength :=
        List.length_pos_of_ne_nil (Store.RuntimeCommit.mutations_ne_nil haccepted.valid)
      show state.store.cursor < (state.store.applyAll writes).cursor
      rw [haccepted.effect]
      show state.store.cursor < state.store.cursor + commit.mutations.length
      omega
  · rw [haccepted.effect, ← hdigest]
    exact find?_insert_self ..

theorem preserves_requireReceipts {R : State → State → Prop} [Std.Refl R] [IsTrans State R]
    (receipts : List FunctionInvocationReceipt) :
    Preserves R (requireCommittedTransactionFunctionReceipts receipts) :=
  preserves_get.bind fun _ => preserves_require _ _

theorem wp_rejectCommit {env : Environment M} {error : Store.Error}
    (h : Pends services state sessionId transactionId key operationSha256 pending intent)
    (habsent : state.store.commits.find? intent.runtimeCommitSha256 = none) :
    wp (rejectCommit services env sessionId transactionId pending error) (fun _ _ => False)
      (fun _ => Quiet services state) state := by
  refine wp_cond (fun _ => ?_) fun _ => Quiet.refl _
  refine wp_seq wp_replaceSession ?_
  rintro _ _ ⟨-, rfl, hfind, -⟩
  have hsucceeds : Succeeds services state sessionId pending.session
      (pending.session.put transactionId { pending.record with commitIntent := none }) :=
    .put ⟨rfl, rfl, rfl⟩ rfl h.record (.drop h.isOpen h.intended habsent)
  exact Succeeds.quiet (fun _ => hsucceeds) hfind

theorem validateDataTransaction_eq_ok {u : Unit} :
    validateDataTransaction services read commit = .ok u ↔
      read.validate services.externals.digests = .ok () ∧
      commit.validate services.externals.floats = .ok () ∧ read.scope = commit.scope ∧
      read.commitCursor = commit.expectedCursor := by
  simp only [validateDataTransaction, bind_eq_ok, ensure_eq_ok]
  constructor
  · rintro ⟨_, hread, _, hcommit, _, hscope, hcursor⟩
    exact ⟨hread, hcommit, hscope, hcursor⟩
  · rintro ⟨hread, hcommit, hscope, hcursor⟩
    exact ⟨(), hread, (), hcommit, (), hscope, hcursor⟩

theorem wp_reconcile {env : Environment M}
    (h : Pends services state sessionId transactionId key operationSha256 pending intent)
    (hdigest : services.externals.digests.commit commit = intent.runtimeCommitSha256) :
    wp (reconcile services env sessionId transactionId pending intent commit)
      (fun result state' => Publishes services sessionId transactionId state state' ∧
        state'.sessions = state.sessions ∧
        state'.store.commits.find? intent.runtimeCommitSha256 = some result.1)
      (fun _ => Publishes services sessionId transactionId state) state := by
  unfold reconcile
  rw [wp_bind, wp_get]
  cases hfound : state.store.commits.find? intent.runtimeCommitSha256 with
  | some outcome =>
    rw [wp_bind]
    refine (preserves_requireReceipts (R := Eq) _).wp ?_ fun _ _ heq => heq ▸ Std.Refl.refl _
    rintro _ _ rfl
    exact ⟨Std.Refl.refl _, rfl, hfound⟩
  | none =>
    refine wp_except fun _ hvalid => ?_
    have hcursor := (validateDataTransaction_eq_ok.mp (coreContract_eq_ok.mp hvalid)).2.2.2
    refine wp_then wp_publishCommit ?_ fun _ _ hfalse => hfalse.elim
    intro reported state' hreported
    rcases hreported with ⟨rfl, error, rfl⟩ |
      ⟨outcome, writes, invocations, hprepare, rfl, haccepted⟩
    · -- nothing was published
      rw [wp_bind, wp_get, hfound]
      exact wp_then (wp_rejectCommit h hfound) (fun _ _ hfalse => hfalse.elim)
        fun _ _ hq => hq.publishes
    · obtain ⟨hpublishes, hpublished⟩ := h.publishes invocations hdigest hfound hcursor
        hprepare
      cases reported with
      | ok accepted =>
        obtain rfl := haccepted accepted rfl
        exact ⟨hpublishes, rfl, hpublished⟩
      | error error =>
        rw [wp_bind, wp_get]
        rw [hpublished, wp_bind]
        refine (preserves_requireReceipts (R := Eq) _).wp ?_ fun _ _ heq => heq ▸ hpublishes
        rintro _ _ rfl
        exact ⟨hpublishes, rfl, hpublished⟩

/-- A client holds the receipt of its transaction, up to the mark of a replay. -/
structure Receipted (state : State) (sessionId transactionId key : CorrelationId)
    (operationSha256 : String) (receipt : CommitReceipt) (record : TransactionRecord)
    (intent : CommitIntent) : Prop where
  found : Placed state → state.record? sessionId transactionId = some record
  committed : record.lease.state = .committed
  intended : record.commitIntent = some intent
  accepted : intent.idempotencyKey = key ∧ intent.operationSha256 = operationSha256
  receipt : ∃ stored, record.commitReceipt = some stored ∧
    { receipt with idempotentReplay := stored.idempotentReplay } = stored

theorem Replayed.receipted {receipt : CommitReceipt}
    (h : Replayed state sessionId transactionId key operationSha256 receipt record intent) :
    Receipted state sessionId transactionId key operationSha256 receipt record intent := by
  obtain ⟨stored, hstored, rfl⟩ := h.receipt
  exact ⟨h.found, h.committed, h.intended, h.accepted, stored, hstored, rfl⟩

theorem TransactionRecord.expire_of_closed (h : record.lease.state ≠ .open) :
    record.expire = record := by
  unfold expire
  rw [if_neg fun hand => h hand.1]

theorem Succeeds.committed {expected : SessionState} {record' : TransactionRecord} {now : Nat}
    (hrecord : expected.transactions.find? transactionId = some record)
    (hadvance : Advance state.store sessionId transactionId record record')
    (hclosed : record'.lease.state ≠ .open) :
    Succeeds services state sessionId expected
      ((expected.put transactionId record').touchOrExpire now) := by
  unfold SessionState.touchOrExpire
  split
  · exact .put ⟨rfl, rfl, rfl⟩ rfl hrecord hadvance
  · have hfind : ∀ other, (expected.put transactionId record').expire.transactions.find? other =
        if other = transactionId then some record'
        else (expected.transactions.find? other).map TransactionRecord.expire := by
      intro other
      show (mapValues (expected.transactions.insert transactionId record') _).find? other = _
      rw [find?_mapValues, find?_insert]
      split
      · rw [Option.map_some, TransactionRecord.expire_of_closed hclosed]
      · rfl
    refine ⟨⟨rfl, rfl, rfl⟩, fun other => ?_, fun other hnone hin => ?_⟩
    · rw [hfind]
      split
      · rename_i heq
        rw [heq, hrecord]
        exact .advance hadvance
      · cases hother : expected.transactions.find? other with
        | none => exact .stay _
        | some found =>
          rw [Option.map_some]
          have hcases : found.expire = found ∨
              Advance state.store sessionId other found found.expire :=
            found.expire_cases
          rcases hcases with heq | hexpire
          · rw [heq]
            exact .stay _
          · exact .advance hexpire
    · rw [hfind] at hin
      split at hin
      · rename_i heq
        rw [heq, hrecord] at hnone
        cases hnone
      · rw [hnone] at hin
        exact absurd rfl hin

theorem find?_touchOrExpire_put {now : Nat} (hclosed : record.lease.state ≠ .open) :
    ((session.put transactionId record).touchOrExpire now).transactions.find? transactionId =
      some record := by
  unfold SessionState.touchOrExpire
  split
  · exact find?_insert_self ..
  · show (mapValues (session.transactions.insert transactionId record) _).find? _ = _
    rw [find?_mapValues, find?_insert_self, Option.map_some,
      TransactionRecord.expire_of_closed hclosed]

theorem wp_settleCommit {env : Environment M}
    (h : Pends services state sessionId transactionId key request.operationSha256 pending intent) :
    wp (settleCommit services env sessionId transactionId request pending)
      (fun receipt state' => Publishes services sessionId transactionId state state' ∧
        ∃ record, Receipted state' sessionId transactionId key request.operationSha256 receipt
          record intent)
      (fun _ => Publishes services sessionId transactionId state) state := by
  refine wp_require fun _ => wp_orFail fun found hfound => ?_
  obtain rfl := Option.some.inj (h.intended.symm.trans hfound)
  refine wp_except fun commit _ => wp_require fun hdigest => wp_seq (wp_reconcile h hdigest) ?_
  rintro ⟨outcome, replay⟩ middle ⟨hpublishes, hsessions, hpublished⟩
  rw [wp_bind]
  refine (preserves_require (R := Eq) _ _).wp ?_ fun _ _ heq => heq ▸ hpublishes
  rintro _ _ rfl
  refine wp_then (wp_replaceSession (R := Eq)) ?_ fun _ _ heq => heq ▸ hpublishes
  rintro _ _ ⟨-, rfl, hfind, -⟩
  let receipt := runtimeReceipt transactionId request.operationSha256 outcome replay
  let committed := { pending.record.enter .committed with commitReceipt := some receipt }
  have hclosed : committed.lease.state ≠ .open := (nofun : TransactionState.committed ≠ .open)
  have hadvance : Advance middle.store sessionId transactionId pending.record
      committed := by
    have hreceipt : receipt = runtimeReceipt transactionId intent.operationSha256 outcome replay :=
      h.accepted.2 ▸ rfl
    unfold committed
    rw [hreceipt]
    exact .commit replay h.isOpen h.intended hpublished
  refine ⟨hpublishes.trans_quiet (Succeeds.quiet (fun _ => .committed h.record hadvance hclosed)
    hfind), committed, fun _ => ?_, rfl, h.intended, h.accepted, receipt, rfl, rfl⟩
  rw [State.record?_replace, find?_touchOrExpire_put hclosed]
  rfl

theorem wp_commitTransaction {env : Environment M} :
    wp (commitTransaction services env sessionId token transactionId key request)
      (fun receipt state' => Publishes services sessionId transactionId state state' ∧
        ∃ record intent, Receipted state' sessionId transactionId key request.operationSha256
          receipt record intent)
      (fun _ => Publishes services sessionId transactionId state) state := by
  unfold commitTransaction
  refine wp_then wp_acceptCommit ?_ fun _ _ hquiet => hquiet.publishes
  intro accepted middle haccepted
  cases accepted with
  | inl receipt =>
    obtain ⟨rfl, record, intent, hreplayed⟩ := haccepted
    exact ⟨(Quiet.refl _).publishes, record, intent, hreplayed.receipted⟩
  | inr pending =>
    obtain ⟨hquiet, intent, hpends⟩ := haccepted
    refine wp_mono (wp_require fun _ => wp_settleCommit hpends) ?_ fun _ _ h =>
      hquiet.trans_publishes h
    rintro receipt final ⟨hpublishes, record, hreceipted⟩
    exact ⟨hquiet.trans_publishes hpublishes, record, intent, hreceipted⟩

def Request.Does (services : Services M) (state state' : State) : Request M → Prop
  | .commit sessionId _ transactionId _ _ =>
    Publishes services sessionId transactionId state state'
  | _ => Quiet services state state'

theorem serve_does (request : Request M) (state : State) :
    wp (serve services env request) (fun _ state' => request.Does services state state')
      (fun _ state' => request.Does services state state') state := by
  cases request with
  | create principalId revision request key =>
    exact ((preserves_createSessionBound env principalId revision request key).bind
      fun _ => preserves_pure _) state
  | renew sessionId token key =>
    exact ((preserves_renewSession env sessionId token key).bind fun _ => preserves_pure _) state
  | close sessionId token key =>
    exact ((preserves_closeSession env sessionId token key).bind fun _ => preserves_pure _) state
  | begin_ sessionId token request context intentSha256 =>
    exact ((preserves_beginTransaction env sessionId token request context intentSha256).bind
      fun _ => preserves_pure _) state
  | preview sessionId token transactionId request context =>
    exact ((preserves_previewTransaction env sessionId token transactionId request context).bind
      fun _ => preserves_pure _) state
  | abort sessionId token transactionId context =>
    exact ((preserves_abortTransaction env sessionId token transactionId context).bind
      fun _ => preserves_pure _) state
  | commit sessionId token transactionId key request =>
    show wp (commitTransaction services env sessionId token transactionId key request >>=
      fun receipt => pure (Response.receipt receipt)) _ _ _
    exact wp_then wp_commitTransaction (fun _ _ h => h.1) fun _ _ h => h

end Rrflow.Engine

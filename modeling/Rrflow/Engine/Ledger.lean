import Rrflow.Engine.Transaction
import Rrflow.Store.Outcomes
import Rrflow.Store.StampHistory

/-!
What happens to transactions, without sessions.

The abstract state is the store, the record of every transaction wherever it is kept,
and a history of who published which runtime commit. There are two kinds of steps:
some records go on, each in one of a few ways, or a transaction publishes the commit of
its intent. Everything that holds of transactions across requests and crashes is an
invariant of these steps.
-/

namespace Rrflow.Engine

open Kernel Contract Checks List SortedMap

variable {M : Type} (services : Services M)

variable {sessionId transactionId : CorrelationId} {record record' : TransactionRecord}
  {store : Store.State}

structure Fresh (store : Store.State) (sessionId transactionId : CorrelationId)
    (record : TransactionRecord) : Prop where
  session : record.lease.sessionId = sessionId
  transaction : record.lease.transactionId = transactionId
  state : record.lease.state = .open
  read : ∃ scope, instanceScope services = .ok scope ∧
    Store.readStampWith services.externals.digests store scope = .ok record.read
  intent : record.commitIntent = none

/-- How the record of an open transaction goes on. -/
inductive Advance (store : Store.State) (sessionId transactionId : CorrelationId) :
    TransactionRecord → TransactionRecord → Prop
  | prepare {record : TransactionRecord} (prepared : PreparedRecord)
      (hopen : record.lease.state = .open) (hintent : record.commitIntent = none) :
      Advance store sessionId transactionId record { record with prepared := some prepared }
  | intend {record : TransactionRecord} (intent : CommitIntent)
      (hopen : record.lease.state = .open) (hintent : record.commitIntent = none)
      (hprepared : ∀ prepared ∈ record.prepared,
        prepared.operationSha256 = intent.operationSha256) :
      Advance store sessionId transactionId record { record with commitIntent := some intent }
  | drop {record : TransactionRecord} {intent : CommitIntent}
      (hopen : record.lease.state = .open) (hintent : record.commitIntent = some intent)
      (habsent : store.commits.find? intent.runtimeCommitSha256 = none) :
      Advance store sessionId transactionId record { record with commitIntent := none }
  | commit {record : TransactionRecord} {intent : CommitIntent} {outcome : RuntimeCommitOutcome}
      (replay : Bool) (hopen : record.lease.state = .open)
      (hintent : record.commitIntent = some intent)
      (hfound : store.commits.find? intent.runtimeCommitSha256 = some outcome) :
      Advance store sessionId transactionId record
        { record.enter .committed with
          commitReceipt := some (runtimeReceipt transactionId intent.operationSha256 outcome replay) }
  | finish {record : TransactionRecord} (state : TransactionState) (abort : Option AbortRecord)
      (hopen : record.lease.state = .open) (hintent : record.commitIntent = none)
      (hstate : state = .aborted ∨ state = .expired) :
      Advance store sessionId transactionId record { record.enter state with abort }

/-- Records stay, go on or begin; none is lost. -/
inductive Lives (store : Store.State) (sessionId transactionId : CorrelationId) :
    Option TransactionRecord → Option TransactionRecord → Prop
  | stay (record : Option TransactionRecord) : Lives store sessionId transactionId record record
  | advance {record record' : TransactionRecord}
      (h : Advance store sessionId transactionId record record') :
      Lives store sessionId transactionId (some record) (some record')
  | begin_ {record : TransactionRecord} (h : Fresh services store sessionId transactionId record) :
      Lives store sessionId transactionId none (some record)

structure Publication where
  sessionId : CorrelationId
  transactionId : CorrelationId
  commitId : String
  deriving DecidableEq

def Publication.key (publication : Publication) : CorrelationId × CorrelationId :=
  (publication.sessionId, publication.transactionId)

structure Ledger where
  store : Store.State
  records : CorrelationId → CorrelationId → Option TransactionRecord
  published : List Publication

inductive Ledger.Step : Ledger → Ledger → Prop
  | records {ledger : Ledger} {records : CorrelationId → CorrelationId → Option TransactionRecord}
      (h : ∀ sessionId transactionId, Lives services ledger.store sessionId transactionId
        (ledger.records sessionId transactionId) (records sessionId transactionId)) :
      Step ledger { ledger with records }
  | publish {ledger : Ledger} {sessionId transactionId : CorrelationId}
      {record : TransactionRecord} {intent : CommitIntent} {commit : RuntimeCommit}
      {outcome : RuntimeCommitOutcome} {writes : List Store.Write}
      (hrecord : ledger.records sessionId transactionId = some record)
      (hintent : record.commitIntent = some intent)
      (hdigest : services.externals.digests.commit commit = intent.runtimeCommitSha256)
      (habsent : ledger.store.commits.find? intent.runtimeCommitSha256 = none)
      (hcursor : record.read.commitCursor = commit.expectedCursor)
      (hprepare : Store.prepareSemanticCommit services.externals ledger.store commit
        (some record.read) none = .ok (outcome, writes)) :
      Step ledger
        { ledger with
          store := ledger.store.applyAll writes
          published := ledger.published ++ [⟨sessionId, transactionId, intent.runtimeCommitSha256⟩] }

abbrev Ledger.Steps : Ledger → Ledger → Prop := Relation.ReflTransGen (Ledger.Step services)

variable {services}

structure Settled (services : Services M) (store : Store.State)
    (sessionId transactionId : CorrelationId) (record : TransactionRecord) : Prop where
  session : record.lease.sessionId = sessionId
  transaction : record.lease.transactionId = transactionId
  stamp : ∃ log, log <+: store.log ∧ instanceScope services = .ok record.read.scope ∧
    Store.StampOf services.externals.digests log (store.catalogRevision record.read.scope)
      record.read
  prepared : ∀ intent, record.commitIntent = some intent → ∀ prepared ∈ record.prepared,
    prepared.operationSha256 = intent.operationSha256
  ended : record.lease.state = .aborted ∨ record.lease.state = .expired → record.commitIntent = none
  committed : record.lease.state = .committed → ∃ intent outcome replay,
    record.commitIntent = some intent ∧
    store.commits.find? intent.runtimeCommitSha256 = some outcome ∧
    record.commitReceipt = some (runtimeReceipt transactionId intent.operationSha256 outcome replay)

theorem Advance.read_eq (h : Advance store sessionId transactionId record record') :
    record'.read = record.read := by
  cases h <;> rfl

theorem Advance.isOpen (h : Advance store sessionId transactionId record record') :
    record.lease.state = .open := by
  cases h <;> assumption

/-- An intent whose commit is published is not given up. -/
theorem Advance.keeps_intent {intent : CommitIntent}
    (h : Advance store sessionId transactionId record record')
    (hintent : record.commitIntent = some intent)
    (hfound : store.commits.find? intent.runtimeCommitSha256 ≠ none) :
    record'.commitIntent = some intent := by
  cases h with
  | prepare prepared hopen hnone => exact absurd (hnone.symm.trans hintent) nofun
  | intend other hopen hnone hprepared => exact absurd (hnone.symm.trans hintent) nofun
  | drop hopen hsome habsent =>
    obtain rfl := Option.some.inj (hsome.symm.trans hintent)
    exact absurd habsent hfound
  | commit replay hopen hsome hcommit => exact hintent
  | finish state abort hopen hnone hstate => exact absurd (hnone.symm.trans hintent) nofun

theorem Fresh.settled (h : Fresh services store sessionId transactionId record)
    (hstore : Store.Reachable services.externals store) :
    Settled services store sessionId transactionId record where
  session := h.session
  transaction := h.transaction
  stamp := by
    obtain ⟨scope, hscope, hread⟩ := h.read
    obtain ⟨rfl, hstamp⟩ := hstore.whole.stampOf hread
    exact ⟨_, prefix_rfl, hscope, hstamp⟩
  prepared := fun intent hintent => absurd (h.intent.symm.trans hintent) nofun
  ended := fun _ => h.intent
  committed := fun hstate => absurd (h.state.symm.trans hstate) nofun

theorem Advance.settled (h : Advance store sessionId transactionId record record')
    (hsettled : Settled services store sessionId transactionId record) :
    Settled services store sessionId transactionId record' := by
  obtain ⟨hsession, htransaction, hstamp, hprepared, hended, hcommitted⟩ := hsettled
  cases h with
  | prepare prepared hopen hnone =>
    refine ⟨hsession, htransaction, hstamp, ?_, hended, hcommitted⟩
    exact fun intent hintent => absurd (hnone.symm.trans hintent) nofun
  | intend intent hopen hnone hmatch =>
    refine ⟨hsession, htransaction, hstamp, ?_, ?_, ?_⟩
    · intro other hother
      obtain rfl := Option.some.inj hother
      exact hmatch
    · exact fun hstate => by simp [hopen] at hstate
    · exact fun hstate => absurd (hopen.symm.trans hstate) nofun
  | drop hopen hsome habsent =>
    refine ⟨hsession, htransaction, hstamp, nofun, fun _ => rfl, ?_⟩
    exact fun hstate => absurd (hopen.symm.trans hstate) nofun
  | commit replay hopen hsome hfound =>
    exact ⟨hsession, htransaction, hstamp, hprepared, nofun,
      fun _ => ⟨_, _, replay, hsome, hfound, rfl⟩⟩
  | finish state abort hopen hnone hstate =>
    refine ⟨hsession, htransaction, hstamp, ?_, fun _ => hnone, ?_⟩
    · exact fun intent hintent => absurd (hnone.symm.trans hintent) nofun
    · rintro (rfl : state = .committed)
      simp at hstate

/-- A record stays settled while the store grows by other commits. -/
theorem Settled.of_accepted {commit : RuntimeCommit} {outcome : RuntimeCommitOutcome}
    {writes : List Store.Write} {accumulator : Store.LogLeaves}
    {schema : Option RuntimeSchemaRegistry} {audit : AuditEnvelope}
    {indexWrites : List Store.IndexWrite}
    (h : Settled services store sessionId transactionId record)
    (haccepted : Store.Accepted services.externals store commit outcome writes accumulator schema
      audit indexWrites) (hwhole : Store.Whole services.externals store)
    (habsent : store.commits.find? (services.externals.digests.commit commit) = none) :
    Settled services (store.applyAll writes) sessionId transactionId record where
  session := h.session
  transaction := h.transaction
  stamp := by
    obtain ⟨log, hprefix, hscope, hstamp⟩ := h.stamp
    refine ⟨log, ?_, hscope, ?_⟩
    · rw [(haccepted.log_eq hwhole).1]
      exact hprefix.trans (prefix_append ..)
    · rw [haccepted.catalogRevision]
      exact hstamp
  prepared := h.prepared
  ended := h.ended
  committed := by
    intro hstate
    obtain ⟨intent, found, replay, hintent, hfound, hreceipt⟩ := h.committed hstate
    refine ⟨intent, found, replay, hintent, ?_, hreceipt⟩
    rw [haccepted.effect]
    exact find?_insert_of_none habsent hfound

/-- What holds of every publication: its transaction still has the intent and is past
its read cursor. -/
def Ledger.Kept (ledger : Ledger) (publication : Publication) : Prop :=
  ∃ record intent, ledger.records publication.sessionId publication.transactionId = some record ∧
    record.commitIntent = some intent ∧ intent.runtimeCommitSha256 = publication.commitId ∧
    ledger.store.commits.find? publication.commitId ≠ none ∧
    record.read.commitCursor < ledger.store.cursor

structure Ledger.Sound (services : Services M) (ledger : Ledger) : Prop where
  reachable : Store.Reachable services.externals ledger.store
  settled : ∀ sessionId transactionId record, ledger.records sessionId transactionId = some record →
    Settled services ledger.store sessionId transactionId record
  once : (ledger.published.map Publication.key).Nodup
  kept : ∀ publication ∈ ledger.published, ledger.Kept publication

theorem Ledger.Sound.step_records {ledger : Ledger}
    {records : CorrelationId → CorrelationId → Option TransactionRecord}
    (h : ledger.Sound services)
    (hlives : ∀ sessionId transactionId, Lives services ledger.store sessionId transactionId
      (ledger.records sessionId transactionId) (records sessionId transactionId)) :
    Ledger.Sound services { ledger with records } where
  reachable := h.reachable
  settled := by
    intro sessionId transactionId record hrecord
    have hlife := hlives sessionId transactionId
    rw [show records sessionId transactionId = some record from hrecord] at hlife
    generalize hold : ledger.records sessionId transactionId = old at hlife
    cases hlife with
    | stay => exact h.settled _ _ _ hold
    | advance hadvance => exact hadvance.settled (h.settled _ _ _ hold)
    | begin_ hfresh => exact hfresh.settled h.reachable
  once := h.once
  kept := by
    intro publication hmem
    obtain ⟨record, intent, hrecord, hintent, hid, hfound, hcursor⟩ := h.kept publication hmem
    have hlife := hlives publication.sessionId publication.transactionId
    rw [hrecord] at hlife
    generalize hnew : records publication.sessionId publication.transactionId = new at hlife
    cases hlife with
    | stay => exact ⟨record, intent, hnew, hintent, hid, hfound, hcursor⟩
    | advance hadvance =>
      refine ⟨_, intent, hnew, hadvance.keeps_intent hintent (hid ▸ hfound), hid, hfound, ?_⟩
      rw [hadvance.read_eq]
      exact hcursor

variable {ledger ledger' : Ledger}

theorem Ledger.Sound.step (h : ledger.Sound services) (hstep : Ledger.Step services ledger ledger')
    : ledger'.Sound services := by
  cases hstep with
  | records hlives => exact h.step_records hlives
  | @publish sessionId transactionId record intent commit outcome writes hrecord hintent hdigest
      habsent hcursor hprepare =>
      obtain ⟨accumulator, schema, audit, indexWrites, haccepted⟩ :=
        Store.prepareSemanticCommit_eq_ok hprepare
      have hwhole := h.reachable.whole
      have habsent' : ledger.store.commits.find? (services.externals.digests.commit commit) = none :=
        hdigest ▸ habsent
      have hhead : (ledger.store.applyAll writes).cursor =
          ledger.store.cursor + commit.mutations.length := by rw [haccepted.effect]
      have hlength :=
        length_pos_of_ne_nil (Store.RuntimeCommit.mutations_ne_nil haccepted.valid)
      have hexpected := haccepted.expected
      have hcommits : ∀ id, ledger.store.commits.find? id ≠ none →
          (ledger.store.applyAll writes).commits.find? id ≠ none := by
        intro id hid
        obtain ⟨found, hfound⟩ := Option.ne_none_iff_exists'.mp hid
        rw [haccepted.effect]
        exact Option.ne_none_iff_exists'.mpr
          ⟨found, find?_insert_of_none habsent' hfound⟩
      refine ⟨?_, ?_, ?_, ?_⟩
      · have hrequest : (Store.Request.commit commit (some record.read) none).prepare
            services.externals ledger.store = .ok writes := by
          simp only [Store.Request.prepare, hprepare, bind, Except.bind, pure, Except.pure]
        exact h.reachable.step hrequest
      · intro s t other hother
        exact (h.settled s t other hother).of_accepted haccepted hwhole habsent'
      · -- a transaction that published is behind the head, and so cannot publish again
        rw [map_append, map_singleton, nodup_append]
        refine ⟨h.once, nodup_singleton _, ?_⟩
        intro key hold other hnew heq
        obtain ⟨publication, hmem, rfl⟩ := mem_map.mp hold
        rw [mem_singleton.mp hnew] at heq
        obtain ⟨hsession, htransaction⟩ := Prod.mk.inj heq
        obtain ⟨found, _, hfound, -, -, -, hbehind⟩ := h.kept publication hmem
        rw [show publication.sessionId = sessionId from hsession,
          show publication.transactionId = transactionId from htransaction] at hfound
        obtain rfl := Option.some.inj (hfound.symm.trans hrecord)
        omega
      · intro publication hmem
        rcases mem_append.mp hmem with hold | hnew
        · obtain ⟨found, other, hfound, hother, hid, hpublished, hbehind⟩ :=
            h.kept publication hold
          exact ⟨found, other, hfound, hother, hid, hcommits _ hpublished, by
            show found.read.commitCursor < (ledger.store.applyAll writes).cursor
            omega⟩
        · obtain rfl := mem_singleton.mp hnew
          refine ⟨record, intent, hrecord, hintent, rfl, ?_, ?_⟩
          · show (ledger.store.applyAll writes).commits.find? intent.runtimeCommitSha256 ≠ none
            rw [haccepted.effect, ← hdigest, find?_insert_self]
            exact Option.some_ne_none _
          · show record.read.commitCursor < (ledger.store.applyAll writes).cursor
            omega

theorem Ledger.Sound.steps (h : ledger.Sound services)
    (hsteps : Ledger.Steps services ledger ledger') : ledger'.Sound services := by
  induction hsteps with
  | refl => exact h
  | tail _ hstep ih => exact ih.step hstep

/-- The record of a transaction that has begun is never lost, and its stamp stays. -/
theorem Ledger.Steps.keeps (h : Ledger.Steps services ledger ledger')
    (hrecord : ledger.records sessionId transactionId = some record) :
    ∃ record', ledger'.records sessionId transactionId = some record' ∧
      record'.read = record.read ∧ (record.lease.state ≠ .open → record' = record) := by
  induction h with
  | refl => exact ⟨record, hrecord, rfl, fun _ => rfl⟩
  | tail _ hstep ih =>
    obtain ⟨middle, hmiddle, hread, hsame⟩ := ih
    cases hstep with
    | publish => exact ⟨middle, hmiddle, hread, hsame⟩
    | @records records hlives =>
      have hlife := hlives sessionId transactionId
      rw [hmiddle] at hlife
      generalize hnew : records sessionId transactionId = new at hlife
      cases hlife with
      | stay => exact ⟨middle, hnew, hread, hsame⟩
      | advance hadvance =>
        refine ⟨_, hnew, hadvance.read_eq.trans hread, fun hclosed => ?_⟩
        exact absurd (hsame hclosed ▸ hadvance.isOpen) hclosed

theorem Ledger.Steps.keeps_published (h : Ledger.Steps services ledger ledger')
    {intent : CommitIntent} {outcome : RuntimeCommitOutcome}
    (hrecord : ledger.records sessionId transactionId = some record)
    (hintent : record.commitIntent = some intent)
    (hfound : ledger.store.commits.find? intent.runtimeCommitSha256 = some outcome) :
    (∃ record', ledger'.records sessionId transactionId = some record' ∧
      record'.commitIntent = some intent) ∧
    ledger'.store.commits.find? intent.runtimeCommitSha256 = some outcome ∧
    ∀ publication ∈ ledger'.published, publication.key = (sessionId, transactionId) →
      publication ∈ ledger.published := by
  induction h with
  | refl => exact ⟨⟨record, hrecord, hintent⟩, hfound, fun _ hmem _ => hmem⟩
  | tail _ hstep ih =>
    obtain ⟨⟨middle, hmiddle, hkept⟩, hstill, hnone⟩ := ih
    cases hstep with
    | @records records hlives =>
      refine ⟨?_, hstill, hnone⟩
      have hlife := hlives sessionId transactionId
      rw [hmiddle] at hlife
      generalize hnew : records sessionId transactionId = new at hlife
      cases hlife with
      | stay => exact ⟨middle, hnew, hkept⟩
      | advance hadvance =>
        exact ⟨_, hnew, hadvance.keeps_intent hkept (by rw [hstill]; exact nofun)⟩
    | @publish session transaction other intended commit published writes hother hintended hdigest
        habsent hcursor hprepare =>
        obtain ⟨_, _, _, _, haccepted⟩ := Store.prepareSemanticCommit_eq_ok hprepare
        refine ⟨⟨middle, hmiddle, hkept⟩, ?_, ?_⟩
        · show (Store.State.applyAll _ writes).commits.find? _ = _
          rw [haccepted.effect]
          exact find?_insert_of_none (hdigest ▸ habsent) hstill
        · intro publication hmem hkey
          rcases mem_append.mp hmem with hold | hnew
          · exact hnone publication hold hkey
          · -- the commit of its intent is there, so it is not published
            obtain rfl := mem_singleton.mp hnew
            obtain ⟨hsession, htransaction⟩ := Prod.mk.inj hkey
            rw [show session = sessionId from hsession,
              show transaction = transactionId from htransaction] at hother
            obtain rfl := Option.some.inj (hother.symm.trans hmiddle)
            obtain rfl := Option.some.inj (hintended.symm.trans hkept)
            exact absurd (hstill.symm.trans habsent) nofun

end Rrflow.Engine

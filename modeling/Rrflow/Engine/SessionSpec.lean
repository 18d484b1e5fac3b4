import Rrflow.Engine.Ledger

/-!
What writing a session does to its transactions.

The transaction that leaves a session with a write is found under its own key from then
on, so its record does not change. A write therefore is a step of the ledger as soon as
each transaction of the new session comes from the old one in one of the ways of the
ledger.
-/

namespace Rrflow.Engine

open Kernel Contract Checks Eff SortedMap

variable {M : Type} {services : Services M} {α : Type}

variable {sessionId transactionId : CorrelationId} {session expected : SessionState} {now : Nat}

/-! ### Checks -/

section Checks

variable {β : Type} {f : α → Serve β} {Q : β → State → Prop} {R : State → State → Prop}
  [Std.Refl R] {state : State}

theorem wp_except {x : Except ServiceError α}
    (h : ∀ a, x = .ok a → wp (f a) Q (fun _ => R state) state) :
    wp (ofExcept x >>= f) Q (fun _ => R state) state := by
  rw [wp_bind]
  exact wp_ofExcept h fun _ _ => Std.Refl.refl _

theorem wp_require {c : Prop} [Decidable c] {error : ServiceError} {f : Unit → Serve β}
    (h : c → wp (f ()) Q (fun _ => R state) state) :
    wp (require c error >>= f) Q (fun _ => R state) state := by
  rw [wp_bind, require]
  exact wp_cond h fun _ => Std.Refl.refl _

theorem wp_orFail {x : Option α} {error : ServiceError}
    (h : ∀ a, x = some a → wp (f a) Q (fun _ => R state) state) :
    wp (orFail x error >>= f) Q (fun _ => R state) state := by
  rw [wp_bind]
  cases x with
  | none => exact Std.Refl.refl _
  | some a => exact h a rfl

theorem wp_stored {x : Except Store.Error α}
    (h : ∀ a, x = .ok a → wp (f a) Q (fun _ => R state) state) :
    wp (stored x >>= f) Q (fun _ => R state) state := by
  rw [wp_bind]
  cases x with
  | error error => exact Std.Refl.refl _
  | ok a => exact h a rfl

omit [Std.Refl R] in
theorem wp_reads {x : Serve α} {P : α → Prop}
    (hx : wp x (fun a state' => state' = state ∧ P a) (fun _ => R state) state)
    (h : ∀ a, P a → wp (f a) Q (fun _ => R state) state) :
    wp (x >>= f) Q (fun _ => R state) state :=
  wp_seq hx fun a _ ⟨hsame, hP⟩ => hsame ▸ h a hP

theorem preserves_require (c : Prop) [Decidable c] (error : ServiceError) :
    Preserves R (require c error) :=
  Preserves.ite (preserves_pure _) (preserves_fail _)

theorem preserves_orFail (x : Option α) (error : ServiceError) : Preserves R (orFail x error) := by
  cases x with
  | none => exact preserves_fail _
  | some a => exact preserves_pure _

theorem preserves_checked (x : Except String α) : Preserves R (checked x) := preserves_ofExcept _

theorem preserves_checkedTime [IsTrans State R] (a b : Nat) (message : String) :
    Preserves R (checkedTime a b message) :=
  (preserves_require _ _).bind fun _ => preserves_pure _

theorem wp_checkedTime {a b : Nat} {message : String} :
    wp (checkedTime a b message) (fun time state' => state' = state ∧ time = a + b)
      (fun _ => R state) state :=
  wp_require fun _ => ⟨rfl, rfl⟩

theorem preserves_decodeSession [IsTrans State R] (session : SessionState) :
    Preserves R (decodeSession session) :=
  (preserves_require _ _).bind fun _ => (preserves_require _ _).bind fun _ => preserves_pure _

end Checks

/-! ### Where records are -/

/-- The record of a transaction, wherever it is. -/
def State.record? (state : State) (sessionId transactionId : CorrelationId) :
    Option TransactionRecord :=
  ((state.sessions.find? sessionId).bind fun session => session.transactions.find? transactionId).or
    ((state.terminals.find? (transactionKey sessionId transactionId)).map (·.record))

def State.ledger (state : State) (published : List Publication) : Ledger :=
  ⟨state.store, state.record?, published⟩

/-- A session is under its own key and in the current format; a record is in one place,
and only those of ended transactions are outside of their sessions. -/
structure Placed (state : State) : Prop where
  session : ∀ sessionId session, state.sessions.find? sessionId = some session →
    session.sessionId = sessionId ∧ session.formatVersion = sessionStateFormat ∧
      session.terminalTransactionFormat = terminalTransactionFormat
  apart : ∀ sessionId session transactionId, state.sessions.find? sessionId = some session →
    session.transactions.find? transactionId ≠ none →
    state.terminals.find? (transactionKey sessionId transactionId) = none
  terminal : ∀ sessionId transactionId terminal,
    state.terminals.find? (transactionKey sessionId transactionId) = some terminal →
    terminal.formatVersion = terminalTransactionFormat ∧ terminal.record.lease.state ≠ .open

/-- Some records go on, and nothing else happens. -/
structure Quiet (services : Services M) (state state' : State) : Prop where
  placed : Placed state → Placed state'
  store : state'.store = state.store
  invocations : state'.invocations = state.invocations
  steps : Placed state → ∀ published,
    Ledger.Steps services (state.ledger published) (state'.ledger published)

instance : Std.Refl (Quiet services) := ⟨fun _ => ⟨id, rfl, rfl, fun _ _ => .refl⟩⟩

instance : IsTrans State (Quiet services) :=
  ⟨fun _ _ _ h h' => ⟨fun hplaced => h'.placed (h.placed hplaced), h'.store.trans h.store,
    h'.invocations.trans h.invocations,
    fun hplaced published => (h.steps hplaced published).trans (h'.steps (h.placed hplaced) published)⟩⟩

theorem Quiet.refl (state : State) : Quiet services state state := Std.Refl.refl _

theorem transactionKey_inj {s t s' t' : CorrelationId} :
    transactionKey s t = transactionKey s' t' ↔ s = s' ∧ t = t' := by
  unfold transactionKey
  rw [EmbeddingLike.apply_eq_iff_eq, Prod.mk.injEq]

theorem SessionState.find?_of_terminal {record : TransactionRecord}
    (h : session.terminal = some (transactionId, record)) :
    session.transactions.find? transactionId = some record ∧ record.lease.state ≠ .open := by
  refine ⟨mem_toList_iff.mp (List.mem_of_find?_eq_some h), ?_⟩
  simpa using List.find?_some h

theorem SessionState.sessionId_retained (session : SessionState) :
    session.retained.sessionId = session.sessionId ∧
      session.retained.formatVersion = session.formatVersion ∧
      session.retained.terminalTransactionFormat = session.terminalTransactionFormat := by
  unfold retained
  split <;> exact ⟨rfl, rfl, rfl⟩

/-- Everything but the transaction that leaves it stays in a session. -/
theorem SessionState.find?_retained (session : SessionState) (transactionId : CorrelationId) :
    session.retained.transactions.find? transactionId =
      if session.terminal.map Prod.fst = some transactionId then none
      else session.transactions.find? transactionId := by
  unfold retained
  cases hterminal : session.terminal with
  | none => simp
  | some entry =>
    show (session.transactions.erase entry.1).find? transactionId = _
    rw [find?_erase]
    by_cases heq : transactionId = entry.1
    · simp [heq]
    · simp [heq, Ne.symm heq]

theorem State.find?_terminals_replace (state : State) (sessionId : CorrelationId)
    (session : SessionState) (sessionId' transactionId : CorrelationId) :
    (state.replace sessionId session).terminals.find? (transactionKey sessionId' transactionId) =
      if sessionId' = sessionId ∧ session.terminal.map Prod.fst = some transactionId then
        session.terminal.map fun entry => ⟨terminalTransactionFormat, entry.2⟩
      else state.terminals.find? (transactionKey sessionId' transactionId) := by
  unfold replace
  cases hterminal : session.terminal with
  | none => simp
  | some entry =>
    show (state.terminals.insert (transactionKey sessionId entry.1) _).find? _ = _
    rw [find?_insert]
    simp only [transactionKey_inj]
    by_cases h : sessionId' = sessionId ∧ transactionId = entry.1
    · obtain ⟨rfl, rfl⟩ := h
      simp
    · rw [if_neg h, if_neg]
      rintro ⟨hsession, hentry⟩
      exact h ⟨hsession, (Option.some.inj hentry).symm⟩

/-- A write does not lose the transaction that leaves the session. -/
theorem State.record?_replace (state : State) (sessionId : CorrelationId) (session : SessionState)
    (transactionId : CorrelationId) :
    (state.replace sessionId session).record? sessionId transactionId =
      (session.transactions.find? transactionId).or
        ((state.terminals.find? (transactionKey sessionId transactionId)).map (·.record)) := by
  unfold record?
  rw [find?_terminals_replace]
  show (((state.sessions.insert sessionId session.retained).find? sessionId).bind _).or _ = _
  rw [find?_insert_self, Option.bind_some, session.find?_retained]
  by_cases hleaves : session.terminal.map Prod.fst = some transactionId
  · obtain ⟨entry, hterminal, rfl⟩ := Option.map_eq_some_iff.mp hleaves
    rw [if_pos hleaves, if_pos ⟨rfl, hleaves⟩, hterminal,
      (SessionState.find?_of_terminal hterminal).1]
    rfl
  · rw [if_neg hleaves, if_neg fun h => hleaves h.2]

theorem State.record?_replace_of_ne (state : State) {sessionId' : CorrelationId}
    (session : SessionState) (transactionId : CorrelationId) (hne : sessionId' ≠ sessionId) :
    (state.replace sessionId session).record? sessionId' transactionId =
      state.record? sessionId' transactionId := by
  unfold record?
  rw [find?_terminals_replace, if_neg fun h => hne h.1]
  show (((state.sessions.insert sessionId session.retained).find? sessionId').bind _).or _ = _
  rw [find?_insert_of_ne _ _ hne]

/-! ### Writing a session -/

/-- The parts of a session that no request changes. -/
abbrev Same (expected session : SessionState) : Prop :=
  session.sessionId = expected.sessionId ∧ session.formatVersion = expected.formatVersion ∧
    session.terminalTransactionFormat = expected.terminalTransactionFormat

/-- A session that may take the place of another one. -/
structure Succeeds (services : Services M) (state : State) (sessionId : CorrelationId)
    (expected session : SessionState) : Prop where
  same : session.sessionId = expected.sessionId ∧
    session.formatVersion = expected.formatVersion ∧
    session.terminalTransactionFormat = expected.terminalTransactionFormat
  lives : ∀ transactionId, Lives services state.store sessionId transactionId
    (expected.transactions.find? transactionId) (session.transactions.find? transactionId)
  fresh : ∀ transactionId, expected.transactions.find? transactionId = none →
    session.transactions.find? transactionId ≠ none →
    state.terminals.find? (transactionKey sessionId transactionId) = none

theorem Lives.ne_none {store : Store.State} {old new : Option TransactionRecord}
    (h : Lives services store sessionId transactionId old new) (hold : old ≠ none) :
    new ≠ none := by
  cases h with
  | stay => exact hold
  | advance => exact nofun
  | begin_ => exact nofun

variable {state : State}

/-- What is in the new session is nowhere else. -/
theorem Succeeds.apart (h : Succeeds services state sessionId expected session)
    (hplaced : Placed state) (hfind : state.sessions.find? sessionId = some expected)
    (hin : session.transactions.find? transactionId ≠ none) :
    state.terminals.find? (transactionKey sessionId transactionId) = none := by
  by_cases hold : expected.transactions.find? transactionId = none
  · exact h.fresh transactionId hold hin
  · exact hplaced.apart sessionId expected transactionId hfind hold

theorem Succeeds.placed (h : Succeeds services state sessionId expected session)
    (hplaced : Placed state) (hfind : state.sessions.find? sessionId = some expected) :
    Placed (state.replace sessionId session) where
  session := by
    intro sessionId' found hfound
    rcases eq_or_find?_of_insert hfound with ⟨rfl, rfl⟩ | hfound
    · obtain ⟨hid, hformat, hterminal⟩ := hplaced.session _ _ hfind
      obtain ⟨hid', hformat', hterminal'⟩ := session.sessionId_retained
      exact ⟨hid'.trans (h.same.1.trans hid), hformat'.trans (h.same.2.1.trans hformat),
        hterminal'.trans (h.same.2.2.trans hterminal)⟩
    · exact hplaced.session _ _ hfound
  apart := by
    intro sessionId' found transactionId hfound hin
    rw [State.find?_terminals_replace]
    change (state.sessions.insert sessionId session.retained).find? sessionId' = some found at hfound
    rw [find?_insert] at hfound
    split at hfound
    · rename_i heq
      subst heq
      obtain rfl := Option.some.inj hfound
      rw [session.find?_retained] at hin
      split at hin
      · exact absurd rfl hin
      · rename_i hleaves
        rw [if_neg fun hand => hleaves hand.2]
        exact h.apart hplaced hfind hin
    · rename_i hne
      rw [if_neg fun hand => hne hand.1]
      exact hplaced.apart sessionId' found transactionId hfound hin
  terminal := by
    intro sessionId' transactionId terminal hterminal
    rw [State.find?_terminals_replace] at hterminal
    split at hterminal
    · obtain ⟨entry, hentry, rfl⟩ := Option.map_eq_some_iff.mp hterminal
      exact ⟨rfl, (SessionState.find?_of_terminal hentry).2⟩
    · exact hplaced.terminal _ _ _ hterminal

theorem Succeeds.quiet (h : Placed state → Succeeds services state sessionId expected session)
    (hfind : state.sessions.find? sessionId = some expected) :
    Quiet services state (state.replace sessionId session) where
  placed := fun hplaced => (h hplaced).placed hplaced hfind
  store := rfl
  invocations := rfl
  steps := by
    intro hplaced published
    refine .single (.records fun sessionId' transactionId => ?_)
    show Lives services state.store sessionId' transactionId
      (state.record? sessionId' transactionId) _
    by_cases hsession : sessionId' = sessionId
    · subst hsession
      have hlife := (h hplaced).lives transactionId
      rw [State.record?_replace, State.record?, hfind, Option.bind_some]
      by_cases hin : session.transactions.find? transactionId = none
      · have hold : expected.transactions.find? transactionId = none := by
          by_contra hold
          exact hlife.ne_none hold hin
        rw [hin, hold]
        exact .stay _
      · rw [(h hplaced).apart hplaced hfind hin, Option.map_none, Option.or_none, Option.or_none]
        exact hlife
    · rw [State.record?_replace_of_ne _ _ _ hsession]
      exact .stay _

variable {R : State → State → Prop}

theorem wp_replaceSession [Std.Refl R] {state : State} :
    wp (replaceSession services sessionId expected session now)
      (fun stored state' => stored = session.retained ∧ state' = state.replace sessionId session ∧
        state.sessions.find? sessionId = some expected ∧ now ≠ 0)
      (fun _ => R state) state := by
  unfold replaceSession
  rw [wp_bind, wp_get]
  refine wp_stored fun _ _ => wp_stored fun _ htime => ?_
  have hwrite : wp (do
      stored (ensure (state.sessions.find? sessionId = some expected)
        (.controlConflict (sessionKey services sessionId)))
      modify fun state => state.replace sessionId session
      return session.retained)
      (fun stored state' => stored = session.retained ∧ state' = state.replace sessionId session ∧
        state.sessions.find? sessionId = some expected ∧ now ≠ 0)
      (fun _ => R state) state :=
    wp_stored fun _ hfind => ⟨rfl, rfl, ensure_eq_ok.mp hfind, ensure_eq_ok.mp htime⟩
  cases session.terminal with
  | none => exact hwrite
  | some entry => exact wp_stored fun _ _ => hwrite

theorem preserves_replaceSession
    (h : ∀ state, Placed state → Succeeds services state sessionId expected session) :
    Preserves (Quiet services) (replaceSession services sessionId expected session now) := by
  intro state
  refine wp_mono wp_replaceSession ?_ fun _ _ h => h
  rintro _ _ ⟨-, rfl, hfind, -⟩
  exact Succeeds.quiet (h state) hfind

theorem Succeeds.of_same (hsame : Same expected session)
    (htransactions : session.transactions = expected.transactions) :
    Succeeds services state sessionId expected session := by
  refine ⟨hsame, fun transactionId => ?_, ?_⟩
  · rw [htransactions]
    exact .stay _
  · intro transactionId hnone hin
    rw [htransactions] at hin
    exact absurd hnone hin

theorem Succeeds.of_mapValues {f : TransactionRecord → TransactionRecord}
    (hsame : Same expected session)
    (htransactions : session.transactions = expected.transactions.mapValues f)
    (hf : ∀ transactionId record, expected.transactions.find? transactionId = some record →
      f record = record ∨ Advance state.store sessionId transactionId record (f record)) :
    Succeeds services state sessionId expected session := by
  refine ⟨hsame, fun transactionId => ?_, ?_⟩
  · rw [htransactions, find?_mapValues]
    cases hrecord : expected.transactions.find? transactionId with
    | none => exact .stay _
    | some record =>
      rw [Option.map_some]
      rcases hf transactionId record hrecord with heq | hadvance
      · rw [heq]
        exact .stay _
      · exact .advance hadvance
  · intro transactionId hnone hin
    rw [htransactions, find?_mapValues, hnone] at hin
    exact absurd rfl hin

theorem Succeeds.insert {record' : TransactionRecord} (hsame : Same expected session)
    (htransactions : session.transactions = expected.transactions.insert transactionId record')
    (hlives : Lives services state.store sessionId transactionId
      (expected.transactions.find? transactionId) (some record'))
    (hterminal : expected.transactions.find? transactionId = none →
      state.terminals.find? (transactionKey sessionId transactionId) = none) :
    Succeeds services state sessionId expected session := by
  refine ⟨hsame, fun other => ?_, ?_⟩
  · rw [htransactions, find?_insert]
    split
    · rename_i heq
      exact heq ▸ hlives
    · exact .stay _
  · intro other hnone hin
    rw [htransactions, find?_insert] at hin
    split at hin
    · rename_i heq
      subst heq
      exact hterminal hnone
    · exact absurd hnone hin

theorem Succeeds.put {record record' : TransactionRecord} (hsame : Same expected session)
    (htransactions : session.transactions = expected.transactions.insert transactionId record')
    (hrecord : expected.transactions.find? transactionId = some record)
    (hadvance : Advance state.store sessionId transactionId record record') :
    Succeeds services state sessionId expected session :=
  .insert hsame htransactions (hrecord ▸ .advance hadvance) fun hnone =>
    absurd (hrecord.symm.trans hnone) nofun

theorem TransactionRecord.expire_cases {store : Store.State} (record : TransactionRecord) :
    record.expire = record ∨
      Advance store sessionId transactionId record record.expire := by
  unfold expire
  split
  · rename_i h
    exact .inr (.finish .expired record.abort h.1 h.2 (.inr rfl))
  · exact .inl rfl

theorem Succeeds.expire (expected : SessionState) :
    Succeeds services state sessionId expected expected.expire :=
  .of_mapValues ⟨rfl, rfl, rfl⟩ rfl fun _ record _ => record.expire_cases

/-! ### Requests of sessions -/

theorem preserves_requireActiveOrExpire (sessionId : CorrelationId) (session : SessionState)
    (now : Nat) :
    Preserves (Quiet services) (requireActiveOrExpire services sessionId session now) := by
  refine (preserves_require _ _).bind fun _ => Preserves.ite (preserves_pure _) ?_
  exact (preserves_replaceSession fun _ _ => .expire session).bind fun _ => preserves_fail _

theorem wp_requireActiveOrExpire :
    wp (requireActiveOrExpire services sessionId session now)
      (fun _ state' => state' = state ∧ session.status = .active)
      (fun _ => Quiet services state) state := by
  refine wp_require fun hactive => wp_cond (fun _ => ⟨rfl, hactive⟩) fun _ => ?_
  rw [wp_bind]
  exact (preserves_replaceSession fun _ _ => .expire session).wp (fun _ _ h => h) fun _ _ h => h

theorem wp_loadSession [Std.Refl R] {state : State} :
    wp (loadSession sessionId)
      (fun session state' => state' = state ∧ state.sessions.find? sessionId = some session)
      (fun _ => R state) state := by
  unfold loadSession decodeSession
  rw [wp_bind, wp_get]
  exact wp_orFail fun session hfind => wp_require fun _ => wp_require fun _ => ⟨rfl, hfind⟩

theorem wp_loadAuthenticated [Std.Refl R] {state : State} {token : CorrelationId} :
    wp (loadAuthenticated services sessionId token)
      (fun session state' => state' = state ∧ state.sessions.find? sessionId = some session)
      (fun _ => R state) state :=
  wp_reads wp_loadSession fun _ hfind => wp_require fun _ => ⟨rfl, hfind⟩

theorem preserves_loadSession (sessionId : CorrelationId) :
    Preserves (Quiet services) (loadSession sessionId) :=
  preserves_get.bind fun _ => (preserves_orFail _ _).bind fun _ => preserves_decodeSession _

variable (env : Environment M)

theorem preserves_renewSession (sessionId token key : CorrelationId) :
    Preserves (Quiet services) (renewSession services env sessionId token key) := by
  refine (preserves_ofExcept _).bind fun _ => (preserves_loadSession _).bind fun session => ?_
  refine (preserves_ofExcept _).bind fun _ => ?_
  split
  · exact (preserves_require _ _).bind fun _ => preserves_pure _
  · refine (preserves_require _ _).bind fun _ => (preserves_require _ _).bind fun _ => ?_
    refine (preserves_requireActiveOrExpire _ _ _).bind fun _ => ?_
    refine (preserves_checkedTime _ _ _).bind fun _ => ?_
    refine (preserves_replaceSession fun _ _ => ?_).bind fun _ => preserves_pure _
    exact .of_same ⟨rfl, rfl, rfl⟩ rfl

theorem preserves_closeSession (sessionId token key : CorrelationId) :
    Preserves (Quiet services) (closeSession services env sessionId token key) := by
  refine (preserves_ofExcept _).bind fun _ => (preserves_loadSession _).bind fun session => ?_
  refine (preserves_ofExcept _).bind fun _ => ?_
  split
  · exact (preserves_require _ _).bind fun _ => preserves_pure _
  · refine (preserves_require _ _).bind fun _ => ?_
    refine (preserves_requireActiveOrExpire _ _ _).bind fun _ => ?_
    refine fun state => wp_require fun hintents => ?_
    refine ((preserves_replaceSession fun state _ => ?_).bind fun _ => preserves_pure _) state
    refine .of_mapValues ⟨rfl, rfl, rfl⟩ rfl fun transactionId record hrecord => ?_
    unfold TransactionRecord.close
    split
    · rename_i hopen
      refine .inr (.finish .aborted record.abort hopen (hintents record ?_) (.inl rfl))
      refine List.mem_filter.mpr ⟨?_, by simpa using hopen⟩
      exact List.mem_map_of_mem (f := Prod.snd) (mem_toList_iff.mpr hrecord)
    · exact .inl rfl

theorem quiet_create (hnone : state.sessions.find? sessionId = none)
    (hid : session.sessionId = sessionId) (hformat : session.formatVersion = sessionStateFormat)
    (hterminal : session.terminalTransactionFormat = terminalTransactionFormat)
    (hempty : session.transactions = .empty) :
    Quiet services state { state with sessions := state.sessions.insert sessionId session } where
  placed := by
    intro hplaced
    refine ⟨?_, ?_, hplaced.terminal⟩
    · intro sessionId' found hfound
      rcases eq_or_find?_of_insert hfound with ⟨rfl, rfl⟩ | hfound
      · exact ⟨hid, hformat, hterminal⟩
      · exact hplaced.session _ _ hfound
    · intro sessionId' found transactionId hfound hin
      rcases eq_or_find?_of_insert hfound with ⟨rfl, rfl⟩ | hfound
      · rw [hempty] at hin
        exact absurd rfl hin
      · exact hplaced.apart _ _ _ hfound hin
  store := rfl
  invocations := rfl
  steps := by
    intro hplaced published
    refine .single (.records fun sessionId' transactionId => ?_)
    have hsame : ({ state with sessions := state.sessions.insert sessionId session } : State).record?
        sessionId' transactionId = state.record? sessionId' transactionId := by
      unfold State.record?
      show (((state.sessions.insert sessionId session).find? sessionId').bind _).or _ = _
      rw [find?_insert]
      split
      · rename_i heq
        rw [heq, hnone, Option.bind_some, hempty]
        rfl
      · rfl
    show Lives services state.store sessionId' transactionId
      (state.record? sessionId' transactionId) (State.record? _ sessionId' transactionId)
    rw [hsame]
    exact .stay _

theorem preserves_createSessionBound (principalId : Option CanonicalId) (revision : Option Nat)
    (request : CreateSession) (key : CorrelationId) : Preserves (Quiet services)
      (createSessionBound services env principalId revision request key) := by
  refine (preserves_checked _).bind fun _ state => ?_
  rw [wp_bind, wp_get]
  cases hfind : state.sessions.find? (services.keyedId "session" [key.val]) with
  | some session =>
    refine ((preserves_decodeSession _).bind fun _ => (preserves_require _ _).bind fun _ => ?_) state
    exact (preserves_require _ _).bind fun _ => preserves_pure _
  | none =>
    refine wp_reads wp_checkedTime fun _ _ => wp_reads wp_checkedTime fun _ _ => ?_
    exact wp_stored fun _ _ => wp_stored fun _ _ => quiet_create hfind rfl rfl rfl rfl

end Rrflow.Engine

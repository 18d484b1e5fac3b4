import Rrflow.Store.Concurrent

/-!
The control journal under concurrent requests.

The ledger is the part of the control keyspaces that every transition reads and
writes: the records, the journal and its watermarks. `enter` is one transition on it.
Single transitions, batches and batches that travel with a commit stage their writes
in different orders, and all come out as a fold of `enter`. Each of them writes the
sequence of the journal, so it commits only on the ledger that it has read, and the
journal is the list of the accepted transitions in the order of their commits.
-/

namespace Rrflow.Store

open Kernel Checks FirstCommitter List SortedMap

variable {externals : Externals}

variable {writes : List ControlWrite} {state : State} {previous : Option String} {sequence : Nat}

/-! ### Ledgers -/

@[ext] structure Ledger where
  records : SortedMap String Payload
  journal : SortedMap Nat ControlJournalEntry
  sequence : Nat
  digest : Option String

def ControlSpaces.ledger (spaces : ControlSpaces) : Ledger :=
  ⟨spaces.records, spaces.journal, spaces.sequence, spaces.digest⟩

def Ledger.enter (externals : Externals) (ledger : Ledger) (transition : ControlTransition) :
    Ledger :=
  let entry := ControlJournalEntry.committed externals (ledger.sequence + 1) transition
    ledger.digest
  { records := ledger.records.assign transition.key transition.replacement
    journal := ledger.journal.insert (ledger.sequence + 1) entry
    sequence := ledger.sequence + 1
    digest := some entry.digest }

def Request.transitions : Request → List ControlTransition
  | .control transition _ _ => [transition]
  | .controlBatch transitions => transitions
  | .commitWithControl _ transitions => transitions
  | .commit .. | .append _ | .appendIdempotent .. => []

/-- The scope whose catalogue a request replaces. -/
def Request.catalogue? : Request → Option ScopeId
  | .control _ catalogScope _ => catalogScope
  | _ => none

/-- Writes that belong to catalogues and not to the ledger. -/
def ControlWrite.isCatalog : ControlWrite → Bool
  | .catalogRevision .. | .index .. => true
  | _ => false

theorem ledger_applyAll_catalog (h : ∀ write ∈ writes, write.isCatalog = true)
    (spaces : ControlSpaces) :
    (spaces.applyAll writes).ledger = spaces.ledger := by
  induction writes generalizing spaces with
  | nil => rfl
  | cons write rest ih =>
    show ((spaces.apply write).applyAll rest).ledger = _
    rw [ih fun other hmem => h other (mem_cons_of_mem _ hmem)]
    have hwrite := h write mem_cons_self
    cases write <;> first | rfl | cases hwrite

variable (scope : ScopeId)

def ControlWrite.revision? : ControlWrite → Option Nat
  | .catalogRevision other value => if other = scope then some value else none
  | _ => none

def lastRevision (writes : List ControlWrite) : Option Nat :=
  (writes.filterMap (ControlWrite.revision? scope)).getLast?

theorem lastRevision_append (writes more : List ControlWrite) :
    lastRevision scope (writes ++ more) =
      (lastRevision scope more).or (lastRevision scope writes) := by
  rw [lastRevision, filterMap_append, getLast?_append]
  rfl

theorem catalogRevisions_applyAll (writes : List ControlWrite) (spaces : ControlSpaces) :
    (spaces.applyAll writes).catalogRevisions.find? scope =
      (lastRevision scope writes).or (spaces.catalogRevisions.find? scope) := by
  induction writes using List.reverseRecOn with
  | nil => rfl
  | append_singleton writes write ih =>
    rw [ControlSpaces.applyAll_append, lastRevision_append]
    cases write with
    | catalogRevision other value =>
      show ((spaces.applyAll writes).catalogRevisions.insert other value).find? scope = _
      rw [find?_insert, ih]
      by_cases hscope : other = scope
      · simp [lastRevision, ControlWrite.revision?, hscope]
      · simp [lastRevision, ControlWrite.revision?, hscope, Ne.symm hscope]
    | _ => exact ih

theorem lastRevision_eq_none {scope : ScopeId} (h : ∀ write ∈ writes, write.revision? scope = none)
    : lastRevision scope writes = none := by
  rw [lastRevision, filterMap_eq_nil_iff.mpr h]
  rfl

/-! ### Batches -/

@[simp] theorem length_batchEntries (sequence : Nat) (previous : Option String)
    (transitions : List ControlTransition) :
    (batchEntries externals sequence previous transitions).length = transitions.length := by
  induction transitions generalizing sequence previous with
  | nil => rfl
  | cons transition rest ih => rw [batchEntries, length_cons, length_cons, ih]

def lastEntryDigest (previous : Option String) (entries : List ControlJournalEntry) :
    Option String :=
  (entries.getLast?.map (·.digest)).or previous

theorem lastEntryDigest_cons (previous : Option String) (entry : ControlJournalEntry)
    (entries : List ControlJournalEntry) :
    lastEntryDigest previous (entry :: entries) = lastEntryDigest (some entry.digest) entries := by
  cases entries with
  | nil => rfl
  | cons other entries => simp [lastEntryDigest, getLast?_cons]

theorem batchEntries_append (sequence : Nat) (previous : Option String)
    (transitions more : List ControlTransition) :
    batchEntries externals sequence previous (transitions ++ more) =
      batchEntries externals sequence previous transitions ++
        batchEntries externals (sequence + transitions.length)
          (lastEntryDigest previous (batchEntries externals sequence previous transitions)) more := by
  induction transitions generalizing sequence previous with
  | nil => rfl
  | cons transition rest ih =>
    rw [cons_append, batchEntries, batchEntries, ih, cons_append, lastEntryDigest_cons,
      length_cons, show sequence + 1 + rest.length = sequence + (rest.length + 1) by omega]

variable (transitions : List ControlTransition)

theorem applyAll_batch (spaces : ControlSpaces) (ledger : Ledger)
    (hrecords : spaces.records = ledger.records) (hjournal : spaces.journal = ledger.journal) :
    let entries := batchEntries externals ledger.sequence ledger.digest transitions
    let after := spaces.applyAll
      ((transitions.zip entries).flatMap fun pair => transitionWrites pair.1 pair.2)
    let entered := transitions.foldl (Ledger.enter externals) ledger
    after.records = entered.records ∧ after.journal = entered.journal ∧
      entered.sequence = ledger.sequence + transitions.length ∧
      entered.digest = lastEntryDigest ledger.digest entries := by
  induction transitions using List.reverseRecOn with
  | nil => exact ⟨hrecords, hjournal, rfl, rfl⟩
  | append_singleton transitions transition ih =>
    obtain ⟨hrecords', hjournal', hsequence, hdigest⟩ := ih
    dsimp only
    rw [batchEntries_append, zip_append (by simp), flatMap_append,
      ControlSpaces.applyAll_append, foldl_append, ← hdigest, ← hsequence]
    refine ⟨?_, ?_, ?_, ?_⟩
    · exact congrArg (assign · transition.key transition.replacement) hrecords'
    · exact congrArg (insert · _ _) hjournal'
    · rw [length_append]
      exact congrArg (· + 1) hsequence
    · simp [lastEntryDigest, batchEntries, Ledger.enter]

/-- What is checked about transitions before they are staged. -/
structure Admitted (spaces : ControlSpaces) (transitions : List ControlTransition) : Prop where
  expected : ∀ transition ∈ transitions, spaces.records.find? transition.key = transition.expected
  distinct : (transitions.map (·.key)).Nodup
  bound : transitions ≠ [] → spaces.sequence + transitions.length ≤ u64Max

/-- What the control writes of a request come to, on any control keyspaces. -/
structure ControlEffect (externals : Externals) (state : State) (request : Request)
    (writes : List ControlWrite) : Prop where
  admitted : Admitted state.control request.transitions
  ledger : ∀ spaces : ControlSpaces, spaces.ledger = state.control.ledger →
    (spaces.applyAll writes).ledger =
      request.transitions.foldl (Ledger.enter externals) state.control.ledger
  guarded : request.transitions ≠ [] → ∃ write ∈ writes, write.place = .journalSequence
  unguarded : request.transitions = [] → ∀ spaces : ControlSpaces,
    (spaces.applyAll writes).ledger = spaces.ledger
  revision : ∀ scope,
    (∃ write ∈ writes, write.place = .catalogRevision scope) ∧
      lastRevision scope writes =
        some (state.catalogRevision scope + if request.catalogue? = some scope then 1 else 0) ∨
    request.catalogue? ≠ some scope ∧ lastRevision scope writes = none

variable {spaces : ControlSpaces}

theorem checkExpected_eq_ok {transition : ControlTransition} {u : Unit} :
    checkExpected spaces transition = .ok u ↔
      spaces.records.find? transition.key = transition.expected :=
  ensure_eq_ok

theorem nodup_of_foldlM {transitions : List ControlTransition} {keys keys' : List String}
    (h : transitions.foldlM (fun keys transition => do
      transition.validate
      ensure (transition.key ∉ keys)
        (.substrate "control batch cannot address one key more than once")
      return transition.key :: keys) keys = (.ok keys' : Except Error (List String))) :
    (transitions.map (·.key)).Nodup ∧ ∀ transition ∈ transitions, transition.key ∉ keys := by
  induction transitions generalizing keys with
  | nil => exact ⟨nodup_nil, by simp⟩
  | cons transition rest ih =>
    simp only [foldlM_cons, bind_eq_ok, ensure_eq_ok] at h
    obtain ⟨_, ⟨_, -, _, hnew, hkeys⟩, hrest⟩ := h
    obtain rfl := Except.ok.inj hkeys
    obtain ⟨hnodup, hfresh⟩ := ih hrest
    refine ⟨nodup_cons.mpr ⟨?_, hnodup⟩, ?_⟩
    · intro hmem
      obtain ⟨other, hother, hkey⟩ := mem_map.mp hmem
      exact hfresh other hother (by rw [hkey]; exact mem_cons_self)
    · intro other hother
      rcases mem_cons.mp hother with rfl | hother
      · exact hnew
      · exact fun hmem => hfresh other hother (mem_cons_of_mem _ hmem)

variable {entries : List ControlJournalEntry}

/-- The writes of a batch on any keyspaces with the ledger that it was prepared on. -/
theorem prepareControlBatch_eq_ok {transitions : List ControlTransition}
    (h : prepareControlBatch externals spaces transitions = .ok (entries, writes)) :
    Admitted spaces transitions ∧ transitions ≠ [] ∧
    (∀ other : ControlSpaces, other.ledger = spaces.ledger → (other.applyAll writes).ledger =
      transitions.foldl (Ledger.enter externals) spaces.ledger) ∧
    (∃ write ∈ writes, write.place = .journalSequence) ∧
    ∀ scope, ∀ write ∈ writes, write.revision? scope = none := by
  simp only [prepareControlBatch, validateControlBatch, bind_eq_ok, ensure_eq_ok, forM_eq_ok,
    checkExpected_eq_ok] at h
  obtain ⟨_, ⟨_, ⟨hne, -⟩, keys, hkeys, -⟩, _, hexpected, _, -, _, hbound, h⟩ := h
  obtain ⟨rfl, rfl⟩ := Prod.mk.inj (Except.ok.inj h)
  obtain ⟨last, hlast, hsequence⟩ : ∃ last, (batchEntries externals spaces.sequence spaces.digest
      transitions).getLast? = some last ∧
      last.sequence = spaces.sequence + transitions.length := by
    obtain ⟨init, transition, rfl⟩ := transitions.eq_nil_or_concat.resolve_left hne
    rw [concat_eq_append, batchEntries_append, batchEntries, batchEntries, getLast?_concat]
    refine ⟨_, rfl, ?_⟩
    rw [length_append]
    rfl
  rw [hlast]
  refine ⟨⟨hexpected, (nodup_of_foldlM hkeys).1, fun _ => hbound⟩, hne, ?_, ?_, ?_⟩
  · intro other hledger
    obtain ⟨hrecords, hjournal, hcount, hdigest⟩ := @applyAll_batch externals
      transitions other spaces.ledger (congrArg Ledger.records hledger)
      (congrArg Ledger.journal hledger)
    rw [ControlSpaces.applyAll_append]
    refine Ledger.ext hrecords hjournal ?_ ?_
    · rw [hcount]
      exact hsequence
    · rw [hdigest, lastEntryDigest]
      show some last.digest = _
      rw [show (batchEntries externals spaces.ledger.sequence spaces.ledger.digest
        transitions).getLast? = some last from hlast]
      rfl
  · refine ⟨.sequence last.sequence, ?_, rfl⟩
    simp [journalWrites]
  · intro scope write hmem
    simp only [mem_append, mem_flatMap, transitionWrites, journalWrites,
      mem_cons, not_mem_nil, or_false] at hmem
    rcases hmem with ⟨pair, -, rfl | rfl⟩ | ⟨entry, -, rfl | rfl⟩ <;> rfl

theorem isCatalog_of_index {indexWrites : List IndexWrite} {scope : ScopeId} {revision : Nat} :
    ∀ write ∈ indexWrites.map (fun write => ControlWrite.index write.1 write.2) ++
      [.catalogRevision scope revision], write.isCatalog = true := by
  intro write hmem
  simp only [mem_append, mem_map, mem_singleton] at hmem
  rcases hmem with ⟨_, -, rfl⟩ | rfl <;> rfl

theorem lastRevision_index (indexWrites : List IndexWrite) (scope other : ScopeId)
    (revision : Nat) :
    lastRevision other (indexWrites.map (fun write => ControlWrite.index write.1 write.2) ++
      [.catalogRevision scope revision]) = if scope = other then some revision else none := by
  have hindex : lastRevision other
      (indexWrites.map fun write => ControlWrite.index write.1 write.2) = none := by
    refine lastRevision_eq_none fun write hmem => ?_
    obtain ⟨_, -, rfl⟩ := mem_map.mp hmem
    rfl
  rw [lastRevision_append, hindex]
  by_cases hscope : scope = other <;> simp [lastRevision, ControlWrite.revision?, hscope]

theorem catalogWrites_eq_ok {catalogScope : Option ScopeId}
    {definitions : Option (Nat × List IndexCommitBindingDefinition)}
    (h : catalogWrites externals state definitions catalogScope = .ok writes) :
    (catalogScope = none ∧ writes = []) ∨ ∃ scope, catalogScope = some scope ∧
      ∃ indexWrites : List IndexWrite, writes =
        indexWrites.map (fun write => .index write.1 write.2) ++
          [.catalogRevision scope (state.catalogRevision scope + 1)] := by
  cases catalogScope with
  | none => exact .inl ⟨rfl, (Except.ok.inj h).symm⟩
  | some scope =>
    simp only [catalogWrites, bind_eq_ok] at h
    obtain ⟨revision, hrevision, bindings, -, h⟩ := h
    obtain ⟨-, rfl⟩ := next_eq_ok.mp hrevision
    exact .inr ⟨scope, rfl, bindings, (Except.ok.inj h).symm⟩

theorem controlEffect_commitOne {transition : ControlTransition} {catalogScope : Option ScopeId}
    {definitions : Option (Nat × List IndexCommitBindingDefinition)} {entry : ControlJournalEntry}
    (h : commitOne externals state transition catalogScope definitions = .ok (entry, writes)) :
    ControlEffect externals state (.control transition catalogScope definitions) writes := by
  simp only [commitOne, bind_eq_ok, checkExpected_eq_ok] at h
  obtain ⟨_, -, _, hexpected, _, -, sequence, hsequence, catalog, hcatalog, h⟩ := h
  obtain ⟨hbound, rfl⟩ := next_eq_ok.mp hsequence
  obtain ⟨rfl, rfl⟩ := Prod.mk.inj (Except.ok.inj h)
  have hshape := catalogWrites_eq_ok hcatalog
  have hcatalogOnly : ∀ write ∈ catalog, write.isCatalog = true := by
    rcases hshape with ⟨-, rfl⟩ | ⟨scope, -, indexWrites, rfl⟩
    · simp
    · exact isCatalog_of_index
  refine ⟨⟨by simpa [Request.transitions] using hexpected, by simp [Request.transitions],
    fun _ => hbound⟩, ?_, ?_, ?_, ?_⟩
  · intro spaces hledger
    rw [ControlSpaces.applyAll_append, ledger_applyAll_catalog hcatalogOnly]
    have hrecords := congrArg Ledger.records hledger
    have hjournal := congrArg Ledger.journal hledger
    refine Ledger.ext ?_ ?_ rfl rfl
    · exact congrArg (assign · transition.key transition.replacement) hrecords
    · exact congrArg (insert · _ _) hjournal
  · intro _
    refine ⟨.sequence (state.control.sequence + 1), ?_, rfl⟩
    simp [journalWrites, ControlJournalEntry.committed]
  · intro hnil
    cases hnil
  · intro scope
    have hledgerWrites : ∀ entry : ControlJournalEntry, lastRevision scope
        (transitionWrites transition entry ++ journalWrites entry) = none := fun _ => rfl
    rw [lastRevision_append, hledgerWrites]
    rcases hshape with ⟨hscope, rfl⟩ | ⟨other, hscope, indexWrites, rfl⟩
    · exact .inr ⟨by simp [Request.catalogue?, hscope], rfl⟩
    · rw [lastRevision_index]
      by_cases heq : other = scope
      · subst heq
        refine .inl ⟨⟨_, mem_append_right _ (mem_append_right _ mem_cons_self), rfl⟩, ?_⟩
        simp [Request.catalogue?, hscope]
      · exact .inr ⟨by simp [Request.catalogue?, hscope, heq], by simp [heq]⟩

variable {writes : List Write}

theorem controlEffect_commit {commit : RuntimeCommit} {read : Option ReadStamp}
    {archivedAudit : Option AuditEnvelope} {outcome : RuntimeCommitOutcome}
    (h : prepareSemanticCommit externals state commit read archivedAudit = .ok (outcome, writes)) :
    (∀ spaces : ControlSpaces,
      (spaces.applyAll (writes.filterMap Write.control?)).ledger = spaces.ledger) ∧
    (∃ write ∈ writes.filterMap Write.control?, write.place = .catalogRevision commit.scope) ∧
    ∀ scope, lastRevision scope (writes.filterMap Write.control?) =
      if commit.scope = scope then some (state.catalogRevision scope) else none := by
  obtain ⟨indexWrites, hcontrol⟩ := prepareSemanticCommit_control h
  rw [hcontrol]
  refine ⟨fun spaces => ledger_applyAll_catalog isCatalog_of_index spaces,
    ⟨_, mem_append_right _ mem_cons_self, rfl⟩, fun scope => ?_⟩
  rw [lastRevision_index]
  by_cases hscope : commit.scope = scope
  · rw [hscope]
  · rw [if_neg hscope, if_neg hscope]

theorem Request.controlEffect {request : Request} (h : request.prepare externals state = .ok writes)
    :
    ControlEffect externals state request (writes.filterMap Write.control?) := by
  have hnothing : ∀ {request : Request} {writes : List ControlWrite}, writes = [] →
      request.transitions = [] → request.catalogue? = none →
      ControlEffect externals state request writes := by
    rintro request _ rfl htransitions hcatalogue
    refine ⟨⟨by simp [htransitions], by simp [htransitions], fun hne => absurd htransitions hne⟩, ?_,
      fun hne => absurd htransitions hne, fun _ _ => rfl,
      fun scope => .inr ⟨by simp [hcatalogue], rfl⟩⟩
    intro spaces hledger
    rw [htransitions]
    exact hledger
  cases Request.prepared h with
  | @commit commit _ _ _ _ hprepare =>
    obtain ⟨hledger, hmem, hrevision⟩ := controlEffect_commit hprepare
    refine ⟨⟨by simp [transitions], by simp [transitions], fun hne => absurd rfl hne⟩, ?_,
      fun hne => absurd rfl hne, fun _ => hledger, fun scope => ?_⟩
    · intro spaces heq
      rw [hledger, heq]
      rfl
    · rw [hrevision]
      by_cases hscope : commit.scope = scope
      · subst hscope
        exact .inl ⟨hmem, by simp [catalogue?]⟩
      · exact .inr ⟨by simp [catalogue?], by simp [hscope]⟩
  | append | appendIdempotent => exact hnothing (filterMap_control?_claim _) rfl rfl
  | control hprepare =>
    rw [filterMap_control?_control]
    exact controlEffect_commitOne hprepare
  | controlBatch hprepare =>
    rw [filterMap_control?_control]
    obtain ⟨hadmitted, hne, hledger, hguard, hrevision⟩ := prepareControlBatch_eq_ok hprepare
    exact ⟨hadmitted, hledger, fun _ => hguard, fun hnil => absurd hnil hne,
      fun scope => .inr ⟨by simp [catalogue?], lastRevision_eq_none (hrevision scope)⟩⟩
  | @commitWithControl commit transitions _ prepared _ _ hprepare hbatch =>
    obtain ⟨hkeeps, hmem, hrevision⟩ := controlEffect_commit hprepare
    obtain ⟨hadmitted, hne, hledger, hguard, hfree⟩ := prepareControlBatch_eq_ok hbatch
    have hcontrol : (state.applyAll prepared).control.ledger = state.control.ledger := by
      rw [State.applyAll_control, hkeeps]
    rw [filterMap_append, filterMap_control?_control]
    have hbound : transitions ≠ [] → state.control.sequence + transitions.length ≤ u64Max := by
      rw [← show _ = state.control.sequence from congrArg Ledger.sequence hcontrol]
      exact hadmitted.bound
    refine ⟨⟨?_, hadmitted.distinct, hbound⟩, ?_, ?_, fun hnil => absurd hnil hne, ?_⟩
    · intro transition htransition
      rw [← hadmitted.expected transition htransition]
      exact congrArg (fun ledger => ledger.records.find? transition.key) hcontrol.symm
    · intro spaces heq
      rw [ControlSpaces.applyAll_append, hledger _ (by rw [hkeeps, heq, hcontrol]), hcontrol]
      rfl
    · intro _
      obtain ⟨write, hwrite, hplace⟩ := hguard
      exact ⟨write, mem_append_right _ hwrite, hplace⟩
    · intro scope
      rw [lastRevision_append, lastRevision_eq_none (hfree scope), Option.none_or, hrevision]
      by_cases hscope : commit.scope = scope
      · subst hscope
        obtain ⟨write, hwrite, hplace⟩ := hmem
        exact .inl ⟨⟨write, mem_append_left _ hwrite, hplace⟩, by simp [catalogue?]⟩
      · exact .inr ⟨by simp [catalogue?], by simp [hscope]⟩

theorem exists_place_of_control {place : Place}
    (h : ∃ write ∈ writes.filterMap Write.control?, write.place = place) :
    ∃ write ∈ writes, write.place = place := by
  obtain ⟨control, hmem, hplace⟩ := h
  obtain ⟨write, hwrite, hcontrol⟩ := mem_filterMap.mp hmem
  refine ⟨write, hwrite, ?_⟩
  cases write with
  | control other =>
    obtain rfl : other = control := by simpa [Write.control?] using hcontrol
    exact hplace
  | _ => cases hcontrol

theorem guarded_ledger :
    (system externals).Guarded (fun state : State => state.control.ledger) .journalSequence := by
  intro request state writes hprepare
  have heffect := Request.controlEffect hprepare
  by_cases hnil : request.transitions = []
  · right
    intro other
    show (State.applyAll other writes).control.ledger = _
    rw [State.applyAll_control, heffect.unguarded hnil]
  · exact .inl (exists_place_of_control (heffect.guarded hnil))

theorem guarded_catalogRevision :
    (system externals).Guarded (fun state : State => state.catalogRevision scope)
      (.catalogRevision scope) := by
  intro request state writes hprepare
  rcases (Request.controlEffect hprepare).revision scope with ⟨hplace, -⟩ | ⟨-, hnone⟩
  · exact .inl (exists_place_of_control hplace)
  · right
    intro other
    show (State.applyAll other writes).catalogRevision scope = _
    rw [State.catalogRevision, State.applyAll_control, catalogRevisions_applyAll, hnone]
    rfl

/-! ### The journal of some transitions -/

def Ledger.empty : Ledger := ⟨.empty, .empty, 0, none⟩

def Ledger.of (externals : Externals) (transitions : List ControlTransition) : Ledger :=
  transitions.foldl (Ledger.enter externals) .empty

/-- The entries carry consecutive numbers and each the digest of the one before. -/
def JournalChain (externals : Externals) (sequence : Nat) (previous : Option String) :
    List ControlJournalEntry → Prop
  | [] => True
  | entry :: rest => (entry.sequence = sequence + 1 ∧ entry.verify externals = true ∧
      entry.previousDigest = previous) ∧
      JournalChain externals (sequence + 1) (some entry.digest) rest

/-- The value of a record after some entries: the replacement of the last entry of its
key. -/
def valueAfter (entries : List ControlJournalEntry) (key : String) : Option Payload :=
  (entries.filter (·.key = key)).getLast?.bind (·.replacement)

theorem journalChain_batchEntries (sequence : Nat) (previous : Option String)
    (transitions : List ControlTransition) :
    JournalChain externals sequence previous
      (batchEntries externals sequence previous transitions) := by
  induction transitions generalizing sequence previous with
  | nil => trivial
  | cons transition rest ih =>
    refine ⟨⟨rfl, ?_, rfl⟩, ih _ _⟩
    simp [ControlJournalEntry.verify, ControlJournalEntry.committed]

/-- The number of an entry tells its place, and its digest is its own. -/
theorem JournalChain.entry_eq (h : JournalChain externals sequence previous entries) {i : Nat}
    {entry : ControlJournalEntry} (hentry : entries[i]? = some entry) :
    entry.sequence = sequence + i + 1 ∧ entry.verify externals = true := by
  induction entries generalizing sequence previous i with
  | nil => cases hentry
  | cons first rest ih =>
    cases i with
    | zero =>
      obtain rfl : first = entry := by simpa using hentry
      exact ⟨h.1.1, h.1.2.1⟩
    | succ i =>
      obtain ⟨hsequence, hverify⟩ := ih h.2 hentry
      exact ⟨by omega, hverify⟩

theorem Ledger.of_append_singleton (transition : ControlTransition) :
    Ledger.of externals (transitions ++ [transition]) =
      (Ledger.of externals transitions).enter externals transition := by
  rw [of, foldl_append]
  rfl

theorem Ledger.watermarks : (Ledger.of externals transitions).sequence = transitions.length ∧
      (Ledger.of externals transitions).digest =
        lastEntryDigest none (batchEntries externals 0 none transitions) := by
  obtain ⟨-, -, hsequence, hdigest⟩ := @applyAll_batch externals transitions .empty .empty rfl rfl
  exact ⟨by rw [of, hsequence]; exact Nat.zero_add _, hdigest⟩

theorem batchEntries_append_singleton (transition : ControlTransition) :
    batchEntries externals 0 none (transitions ++ [transition]) =
      batchEntries externals 0 none transitions ++
        [ControlJournalEntry.committed externals ((Ledger.of externals transitions).sequence + 1)
          transition (Ledger.of externals transitions).digest] := by
  obtain ⟨hsequence, hdigest⟩ := @Ledger.watermarks externals transitions
  rw [batchEntries_append, hsequence, hdigest, Nat.zero_add]
  rfl

theorem batchEntries_at {transitions : List ControlTransition} {i : Nat}
    (hi : i < transitions.length) : ∃ previous more, batchEntries externals 0 none transitions =
      batchEntries externals 0 none (transitions.take i) ++
        ControlJournalEntry.committed externals (i + 1) transitions[i] previous :: more := by
  have hsplit : transitions.take i ++ transitions[i] :: transitions.drop (i + 1) = transitions := by
    rw [← List.drop_eq_getElem_cons hi, List.take_append_drop]
  have hentries := @batchEntries_append externals 0 none (transitions.take i)
    (transitions[i] :: transitions.drop (i + 1))
  rw [hsplit, batchEntries, length_take, min_eq_left hi.le, Nat.zero_add] at hentries
  exact ⟨_, _, hentries⟩

theorem Ledger.toList_journal : (Ledger.of externals transitions).journal.toList =
      (batchEntries externals 0 none transitions).map fun entry => (entry.sequence, entry) := by
  induction transitions using List.reverseRecOn with
  | nil => rfl
  | append_singleton transitions transition ih =>
    rw [Ledger.of_append_singleton, batchEntries_append_singleton, List.map_append, ← ih]
    refine toList_insert_of_forall_lt ?_
    intro row hrow
    rw [ih] at hrow
    obtain ⟨entry, hmem, rfl⟩ := mem_map.mp hrow
    obtain ⟨i, hi, hentry⟩ := getElem_of_mem hmem
    have hplace := (@journalChain_batchEntries externals 0 none
      transitions).entry_eq (List.getElem?_eq_some_iff.mpr ⟨hi, hentry⟩)
    rw [length_batchEntries] at hi
    rw [(Ledger.watermarks transitions).1]
    show entry.sequence < _
    omega

theorem Ledger.find?_records (key : String) : (Ledger.of externals transitions).records.find? key =
      valueAfter (batchEntries externals 0 none transitions) key := by
  induction transitions using List.reverseRecOn with
  | nil => rfl
  | append_singleton transitions transition ih =>
    rw [Ledger.of_append_singleton, batchEntries_append_singleton, valueAfter, List.filter_append]
    show ((Ledger.of externals transitions).records.assign _ _).find? key = _
    rw [find?_assign, ih]
    by_cases hkey : key = transition.key
    · subst hkey
      simp [ControlJournalEntry.committed]
    · have hother : [ControlJournalEntry.committed externals
          ((Ledger.of externals transitions).sequence + 1) transition
          (Ledger.of externals transitions).digest].filter (·.key = key) = [] :=
        filter_eq_nil_iff.mpr fun entry hmem hentry => hkey (by
          rw [mem_singleton.mp hmem] at hentry
          exact (of_decide_eq_true hentry).symm)
      rw [if_neg hkey, hother, append_nil]
      rfl

/-- Every transition found the value that it expected. -/
def Expected (externals : Externals) (transitions : List ControlTransition) : Prop :=
  ∀ i transition, transitions[i]? = some transition →
    (Ledger.of externals (transitions.take i)).records.find? transition.key = transition.expected

theorem find?_records_foldl_enter {transitions : List ControlTransition} {key : String}
    (h : key ∉ transitions.map (·.key)) (ledger : Ledger) :
    (transitions.foldl (Ledger.enter externals) ledger).records.find? key =
      ledger.records.find? key := by
  induction transitions generalizing ledger with
  | nil => rfl
  | cons transition rest ih =>
    rw [List.map_cons, mem_cons, not_or] at h
    rw [foldl_cons, ih h.2]
    show (ledger.records.assign _ _).find? key = _
    rw [find?_assign, if_neg h.1]

/-- Transitions that are admitted together meet their expectations one after the
other, because their keys differ. -/
theorem Admitted.expected_append {before more : List ControlTransition} (h : Admitted spaces more)
    (hledger : spaces.ledger = Ledger.of externals before) (hbefore : Expected externals before) :
    Expected externals (before ++ more) := by
  intro i transition htransition
  rcases Nat.lt_or_ge i before.length with hi | hi
  · rw [getElem?_append_left hi] at htransition
    rw [take_append_of_le_length hi.le]
    exact hbefore i transition htransition
  · rw [getElem?_append_right hi] at htransition
    have hfresh : transition.key ∉ (more.take (i - before.length)).map (·.key) := by
      obtain ⟨hlt, rfl⟩ := List.getElem?_eq_some_iff.mp htransition
      have hdistinct := h.distinct
      rw [← List.take_append_drop (i - before.length) more, List.drop_eq_getElem_cons hlt,
        List.map_append, List.map_cons] at hdistinct
      intro hmem
      exact (nodup_append.mp hdistinct).2.2 _ hmem _ mem_cons_self rfl
    rw [take_append, take_of_length_le hi, Ledger.of, foldl_append,
      find?_records_foldl_enter hfresh]
    rw [← h.expected transition (mem_of_getElem? htransition)]
    exact congrArg (fun ledger => ledger.records.find? transition.key) hledger.symm

theorem JournalChain.append {entries more : List ControlJournalEntry} :
    JournalChain externals sequence previous (entries ++ more) ↔
      JournalChain externals sequence previous entries ∧
        JournalChain externals (sequence + entries.length) (lastEntryDigest previous entries)
          more := by
  induction entries generalizing sequence previous with
  | nil => simp [JournalChain, lastEntryDigest]
  | cons entry rest ih =>
    rw [cons_append, JournalChain, JournalChain, ih, lastEntryDigest_cons, length_cons,
      show sequence + 1 + rest.length = sequence + (rest.length + 1) by omega]
    exact and_assoc.symm

theorem verifyControlPage_eq_ok (h : JournalChain externals sequence previous entries)
    (hbound : sequence + entries.length ≤ u64Max) :
    verifyControlPage externals sequence previous entries = .ok () := by
  induction entries generalizing sequence previous with
  | nil => rfl
  | cons entry rest ih =>
    rw [length_cons] at hbound
    simp only [verifyControlPage, bind_eq_ok, ensure_eq_ok]
    exact ⟨sequence + 1, next_eq_ok.mpr ⟨by omega, rfl⟩, (), h.1, ih h.2 (by omega)⟩

theorem mapM_pageEntry (entries : List ControlJournalEntry) :
    (entries.map fun entry => (entry.sequence, entry)).mapM pageEntry = .ok entries := by
  induction entries with
  | nil => rfl
  | cons entry rest ih =>
    rw [List.map_cons, mapM_cons, ih]
    simp [pageEntry, ensure, bind, Except.bind, pure, Except.pure]

theorem JournalChain.filter_eq_drop (h : JournalChain externals 0 previous entries) (after : Nat) :
    entries.filter (fun entry => after + 1 ≤ entry.sequence) = entries.drop after := by
  have hplace : ∀ i (entry : ControlJournalEntry), entries[i]? = some entry →
      entry.sequence = i + 1 := by
    intro i entry hentry
    rw [(h.entry_eq hentry).1]
    omega
  have htake : (entries.take after).filter (fun entry => after + 1 ≤ entry.sequence) = [] := by
    rw [filter_eq_nil_iff]
    intro entry hmem
    obtain ⟨i, hi, hget⟩ := mem_take_iff_getElem.mp hmem
    rw [decide_eq_true_eq, hplace i entry (List.getElem?_eq_some_iff.mpr ⟨by omega, hget⟩)]
    omega
  have hdrop : (entries.drop after).filter (fun entry => after + 1 ≤ entry.sequence) =
      entries.drop after := by
    rw [filter_eq_self]
    intro entry hmem
    obtain ⟨i, hi, hget⟩ := mem_drop_iff_getElem.mp hmem
    rw [decide_eq_true_eq, hplace _ entry (List.getElem?_eq_some_iff.mpr ⟨by omega, hget⟩)]
    omega
  nth_rewrite 1 [← List.take_append_drop after entries]
  rw [List.filter_append, htake, hdrop, List.nil_append]

section Pages

variable {spaces : ControlSpaces} {entries : List ControlJournalEntry}

section

variable (hjournal : spaces.journal.toList = entries.map fun entry => (entry.sequence, entry))

include hjournal

/-- A page continues from the digest of the entries before it. -/
theorem journalAnchor_eq (hchain : JournalChain externals 0 none entries) {after : Nat}
    (hafter : after ≤ entries.length) :
    journalAnchor externals spaces after = .ok (lastEntryDigest none (entries.take after)) := by
  unfold journalAnchor
  by_cases hzero : after = 0
  · rw [if_pos hzero, hzero]
    rfl
  · obtain ⟨i, rfl⟩ : ∃ i, after = i + 1 := ⟨after - 1, by omega⟩
    have hentry := getElem?_eq_getElem (show i < entries.length by omega)
    obtain ⟨hnumber, hverify⟩ := hchain.entry_eq hentry
    have hfind : spaces.journal.find? (i + 1) = some entries[i] := by
      rw [← mem_toList_iff, hjournal, mem_map]
      exact ⟨_, getElem_mem (by omega), Prod.ext (by show _ = i + 1; omega) rfl⟩
    rw [if_neg hzero, hfind]
    simp only [bind_eq_ok, ensure_eq_ok]
    refine ⟨(), ⟨hverify, by omega⟩, ?_⟩
    rw [take_succ_eq_append_getElem (by omega), lastEntryDigest, getLast?_concat]
    rfl

/-- A page holds the next entries of the journal. -/
theorem journalSince_eq (hchain : JournalChain externals 0 none entries)
    (hsequence : spaces.sequence = entries.length) (hbound : entries.length ≤ u64Max)
    (after limit : Nat) (hlimit : limit ≠ 0) :
    journalSince externals spaces after limit = .ok ((entries.drop after).take limit) := by
  rw [journalSince, bind_eq_ok]
  refine ⟨(), ensure_eq_ok.mpr hlimit, ?_⟩
  by_cases hbeyond : spaces.sequence < after
  · rw [if_pos hbeyond, drop_eq_nil_of_le (by omega), take_nil]
    rfl
  rw [if_neg hbeyond, bind_eq_ok]
  refine ⟨_, journalAnchor_eq hjournal hchain (by omega), ?_⟩
  by_cases hend : after = spaces.sequence
  · rw [if_pos hend, drop_eq_nil_of_le (by omega), take_nil]
    rfl
  have hrows : (spaces.journal.toList.filter fun row => after + 1 ≤ row.1) =
      (entries.drop after).map fun entry => (entry.sequence, entry) := by
    rw [hjournal, filter_map, ← hchain.filter_eq_drop after]
    rfl
  have hpage : (entries.drop after).take (min limit (spaces.sequence - after)) =
      (entries.drop after).take limit := by
    rw [take_eq_take_iff, length_drop]
    omega
  have hcount : ((entries.drop after).take limit).length = min limit (spaces.sequence - after) := by
    rw [length_take, length_drop]
    omega
  -- the page continues the part of the journal before it
  have hvalid : JournalChain externals after (lastEntryDigest none (entries.take after))
      ((entries.drop after).take limit) := by
    rw [← List.take_append_drop after entries, JournalChain.append, length_take,
      Nat.zero_add, min_eq_left (by omega),
      ← List.take_append_drop limit (entries.drop after), JournalChain.append] at hchain
    exact hchain.2.1
  rw [if_neg hend]
  dsimp only
  rw [hrows, ← map_take, hpage, bind_eq_ok]
  refine ⟨_, mapM_pageEntry _, ?_⟩
  simp only [bind_eq_ok, ensure_eq_ok]
  exact ⟨(), hcount, (), verifyControlPage_eq_ok hvalid (by omega), rfl⟩

end

end Pages

/-- The accepted transitions in the order of their commits. -/
def acceptedTransitions (history : History) : List ControlTransition :=
  history.flatMap fun entry => entry.1.transitions

structure ControlHistory (externals : Externals) (history : History) : Prop where
  ledger : (stateOf externals history).control.ledger =
    Ledger.of externals (acceptedTransitions history)
  expected : Expected externals (acceptedTransitions history)
  bound : (acceptedTransitions history).length ≤ u64Max
  revisions : ∀ scope, (stateOf externals history).catalogRevision scope =
    history.countP fun entry => entry.1.catalogue? = some scope

/-- A request with transitions commits on the ledger that it has read, one that replaces
a catalogue on the revision that it has read. -/
theorem controlHistory_of_serves {history : History} (h : (system externals).Serves history) :
    ControlHistory externals history := by
  refine h.induction ⟨rfl, ?_, Nat.zero_le _, fun _ => rfl⟩ ?_
  · intro i transition htransition
    cases htransition
  · rintro history request writes seen - ⟨hledger, hexpected, hbound, hrevision⟩ hprepare hsaw
    have heffect := Request.controlEffect hprepare
    have haccepted : acceptedTransitions (history ++ [(request, writes)]) =
        acceptedTransitions history ++ request.transitions := by
      simp [acceptedTransitions]
    have hseen : request.transitions ≠ [] →
        seen.control.ledger = (stateOf externals history).control.ledger := fun hne =>
      hsaw (fun state : State => state.control.ledger) .journalSequence guarded_ledger
        (exists_place_of_control (heffect.guarded hne))
    refine ⟨?_, ?_, ?_, ?_⟩
    · rw [haccepted, stateOf_append_singleton, State.applyAll_control, Ledger.of,
        foldl_append]
      by_cases hnil : request.transitions = []
      · rw [heffect.unguarded hnil, hnil, hledger]
        rfl
      · rw [heffect.ledger _ (hseen hnil).symm, hseen hnil, hledger]
        rfl
    · rw [haccepted]
      by_cases hnil : request.transitions = []
      · rw [hnil, append_nil]
        exact hexpected
      · exact heffect.admitted.expected_append ((hseen hnil).trans hledger) hexpected
    · rw [haccepted]
      by_cases hnil : request.transitions = []
      · rw [hnil, append_nil]
        exact hbound
      · have hcount := heffect.admitted.bound hnil
        have hsequence : seen.control.sequence = (acceptedTransitions history).length := by
          rw [← (@Ledger.watermarks externals (acceptedTransitions history)).1,
            ← hledger, ← hseen hnil]
          rfl
        rw [length_append]
        omega
    · intro scope
      rw [stateOf_append_singleton, State.catalogRevision, State.applyAll_control,
        catalogRevisions_applyAll, countP_append, ← hrevision]
      rcases heffect.revision scope with ⟨hplace, hlast⟩ | ⟨hnot, hlast⟩
      · have hsame : seen.catalogRevision scope =
            (stateOf externals history).catalogRevision scope :=
          hsaw (fun state : State => state.catalogRevision scope) (.catalogRevision scope)
            (guarded_catalogRevision scope) (exists_place_of_control hplace)
        rw [hlast, hsame]
        by_cases hcatalogue : request.catalogue? = some scope
        · simp [hcatalogue]
        · simp [hcatalogue]
      · rw [hlast]
        simp [hnot, State.catalogRevision]

/-- The control state of a history is a register file with a journal. -/
structure Linearized (externals : Externals) (history : History)
    (journal : List ControlJournalEntry) : Prop where
  /-- The numbers are gap free and the digests form a chain. -/
  chain : JournalChain externals 0 none journal
  /-- An entry names the value of its key before it. -/
  before : ∀ i entry, journal[i]? = some entry →
    entry.beforeSha256 = (valueAfter (journal.take i) entry.key).map externals.payloadDigest
  /-- A record has the value of the last entry of its key. -/
  values : ∀ key, (stateOf externals history).control.records.find? key = valueAfter journal key
  /-- The transitions of a request stand next to each other. -/
  batches : ∀ earlier request writes later, history = earlier ++ (request, writes) :: later →
    ∃ first last, journal = first ++
      batchEntries externals first.length (lastEntryDigest none first) request.transitions ++ last
  /-- A catalogue has one revision for each accepted replacement. -/
  revisions : ∀ scope, (stateOf externals history).catalogRevision scope =
    history.countP fun entry => entry.1.catalogue? = some scope
  /-- A page holds the next entries, for every limit but zero. -/
  pages : ∀ after limit, limit ≠ 0 →
    journalSince externals (stateOf externals history).control after limit =
      .ok ((journal.drop after).take limit)

/-- Whatever callers interleave, the stored journal linearizes the control state. -/
theorem control_linearized {history : History} (h : (system externals).Serves history) :
    Linearized externals history (stateOf externals history).control.journal.values := by
  obtain ⟨hledger, hexpected, hbound, hrevision⟩ := controlHistory_of_serves h
  have hrows : (stateOf externals history).control.journal.toList =
      (batchEntries externals 0 none (acceptedTransitions history)).map
        fun entry => (entry.sequence, entry) := by
    rw [← Ledger.toList_journal, ← hledger]
    rfl
  have hjournal : (stateOf externals history).control.journal.values =
      batchEntries externals 0 none (acceptedTransitions history) := by
    rw [values, hrows, map_map]
    exact map_id _
  have hsequence : (stateOf externals history).control.sequence =
      (batchEntries externals 0 none (acceptedTransitions history)).length := by
    rw [length_batchEntries, ← (@Ledger.watermarks externals _).1, ← hledger]
    rfl
  rw [hjournal]
  refine ⟨journalChain_batchEntries _ _ _, ?_, ?_, ?_, hrevision,
    journalSince_eq hrows (journalChain_batchEntries _ _ _) hsequence (by simpa using hbound)⟩
  · intro i entry hentry
    have hi : i < (acceptedTransitions history).length := by
      rw [← @length_batchEntries externals 0 none]
      exact (List.getElem?_eq_some_iff.mp hentry).1
    obtain ⟨previous, more, hsplit⟩ := @batchEntries_at externals _ _ hi
    have hlength : (batchEntries externals 0 none
        ((acceptedTransitions history).take i)).length = i := by
      rw [length_batchEntries, length_take]
      omega
    rw [hsplit, getElem?_append_right (by omega), hlength, Nat.sub_self,
      getElem?_cons_zero, Option.some.injEq] at hentry
    rw [hsplit, ← hentry, take_append_of_le_length (by omega),
      take_of_length_le (by omega), ← Ledger.find?_records]
    exact congrArg (Option.map externals.payloadDigest)
      (hexpected i _ (getElem?_eq_getElem hi)).symm
  · intro key
    rw [← Ledger.find?_records, ← hledger]
    rfl
  · rintro earlier request writes later rfl
    have hparts : acceptedTransitions (earlier ++ (request, writes) :: later) =
        acceptedTransitions earlier ++ request.transitions ++ acceptedTransitions later := by
      simp [acceptedTransitions]
    have hall := @batchEntries_append externals 0 none
      (acceptedTransitions earlier ++ request.transitions) (acceptedTransitions later)
    rw [batchEntries_append 0 none (acceptedTransitions earlier), Nat.zero_add, ← hparts,
      ← @length_batchEntries externals 0 none (acceptedTransitions earlier)] at hall
    exact ⟨_, _, hall⟩

def replaceRecord (key value : String) : ControlTransition :=
  { key, expected := none, replacement := some (value.toList.map fun c => Fin.ofNat 256 c.toNat)
    at_ := 1, actor := "operator", action := "put", requestId := "r", operationId := "o" }

theorem Write.place_ne {a b : Write} (ha : a.control?.isSome) (hb : b.claim?.isSome) :
    a.place ≠ b.place := by
  cases a with
  | control write =>
    cases b with
    | claim other => cases write <;> cases other <;> exact nofun
    | _ => cases hb
  | _ => cases ha

/-- Two callers put records, the second one together with the catalogue of a tenant, while a
third one appends a claim. -/
def twoCallers (first claims second : List Write) : History :=
  [(.control (replaceRecord "server/state/a" "x") none none, first),
    (.append [boilsAt "100"], claims),
    (.control (replaceRecord "server/state/b" "y") (some tenant) none, second)]

/-- The append begins before the first record is put and ends after the second caller has
begun. -/
theorem control_linearized_two_callers : ∃ first claims second,
    (system .numbered).Serves (twoCallers first claims second) ∧
    Linearized .numbered (twoCallers first claims second)
      (stateOf .numbered (twoCallers first claims second)).control.journal.values := by
  have hrun : ((Request.control (replaceRecord "server/state/a" "x") none none).prepare .numbered
      State.empty).toOption.any (fun first => first.all (·.control?.isSome) ∧
        ((Request.append [boilsAt "100"]).prepare .numbered State.empty).toOption.any fun claims =>
        claims.all (·.claim?.isSome) ∧
        ((Request.control (replaceRecord "server/state/b" "y") (some tenant) none).prepare .numbered
          (State.empty.applyAll first)).toOption.any fun second =>
            second.all (·.control?.isSome)) = true := by
    decide +kernel
  obtain ⟨first, hfirst, hrun⟩ := exists_ok_of_any hrun
  obtain ⟨hcontrol, hrun⟩ := of_decide_eq_true hrun
  obtain ⟨claims, hclaims, hrun⟩ := exists_ok_of_any hrun
  obtain ⟨hclaim, hrun⟩ := of_decide_eq_true hrun
  obtain ⟨second, hsecond, hcontrol'⟩ := exists_ok_of_any hrun
  rw [all_eq_true] at hcontrol hclaim hcontrol'
  have hserves := @System.Serves.commit _ _ _ _ (system .numbered) _ 0 _ _
    (@System.Serves.commit _ _ _ _ _ [] 0 _ _ .nil hfirst (by simp)) hclaims
    (by simpa [system] using fun write hwrite other hother =>
      Write.place_ne (hcontrol write hwrite) (hclaim other hother))
  have hserves' := @System.Serves.commit _ _ _ _ _ _ 1 _ _ hserves hsecond
    (by simpa [system] using fun write hwrite other hother =>
      (Write.place_ne (hcontrol' other hother) (hclaim write hwrite)).symm)
  exact ⟨first, claims, second, hserves', control_linearized hserves'⟩

/-- A page of at most no entries is refused. -/
theorem journalSince_limit_zero :
    (system .numbered).Serves [] ∧
    journalSince .numbered (stateOf .numbered []).control 0 0 =
      .error (.substrate "control journal limit must be non-zero") :=
  ⟨.nil, rfl⟩

end Rrflow.Store

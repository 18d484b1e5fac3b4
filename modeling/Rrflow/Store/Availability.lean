import Rrflow.Kernel.SnapshotSpec
import Rrflow.Store.VersionIndex

/-!
Which scopes stay readable.

A snapshot is assembled against the newest schema, and a schema revision is not checked
against the history of its scope. So a scope is readable at every instant exactly when
the newest schema still has a table for every change that was entered; then the
retirement of whatever is current is accepted as well.
-/

namespace Rrflow.Store

open Kernel Checks List RuntimeDataSnapshot

variable {externals : Externals}

variable {state : State} {scope : ScopeId} {commit : RuntimeCommit} {at_ : Nat} {actor : String}
  {retirement : RuntimeRetirement} {schema : RuntimeSchemaRegistry}

theorem schemaOf_append (log more : List RuntimeChange) (scope : ScopeId) :
    schemaOf (log ++ more) scope = (schemaOf more scope).or (schemaOf log scope) := by
  simp [schemaOf, filter_append, getLast?_append]

theorem exists_mem_commitChanges {digests : Digests} (cursor ordinal : Nat)
    (previous : Option String) {mutations : List RuntimeMutation} {mutation : RuntimeMutation}
    (h : mutation ∈ mutations) :
    ∃ change ∈ commitChanges digests commit cursor ordinal previous mutations,
      change.mutation = mutation ∧ change.scope = commit.scope := by
  induction mutations generalizing cursor ordinal previous with
  | nil => cases h
  | cons first rest ih =>
    rcases mem_cons.mp h with rfl | h
    · exact ⟨_, mem_cons_self .., rfl, rfl⟩
    · obtain ⟨change, hmem, hchange⟩ := ih (cursor + 1) (ordinal + 1) (some _) h
      exact ⟨change, mem_cons_of_mem _ hmem, hchange⟩

theorem schemaOf_eq_none_iff {log : List RuntimeChange} :
    schemaOf log scope = none ↔
      ∀ change ∈ log, change.scope = scope → change.mutation.schema? = none := by
  simp [schemaOf]

theorem Reachable.isClaim_of_schemaOf_eq_none (h : Reachable externals state)
    (hnone : schemaOf state.log scope = none) :
    ∀ change ∈ state.log, change.scope = scope → change.mutation.isClaim = true := by
  revert hnone
  refine h.log_induction (P := fun log => schemaOf log scope = none →
    ∀ change ∈ log, change.scope = scope → change.mutation.isClaim = true) (by simp) ?_
  intro state commit _ _ _ _ _ _ hwhole haccepted ih hnone change hmem hscope
  rw [schemaOf_append, Option.or_eq_none_iff] at hnone
  rcases mem_append.mp hmem with hmem | hmem
  · exact ih hnone.2 change hmem hscope
  · obtain ⟨hmutation, hcommit⟩ := mem_commitChanges hmem
    obtain rfl : commit.scope = scope := hcommit.symm.trans hscope
    have hproposed : commit.mutations.findSome? RuntimeMutation.schema? = none := by
      rw [findSome?_eq_none_iff]
      intro mutation hmutation
      obtain ⟨other, hother, rfl, hscope'⟩ :=
        exists_mem_commitChanges state.cursor 0 state.headDigest hmutation
      exact schemaOf_eq_none_iff.mp hnone.1 other hother hscope'
    have hobjects := haccepted.objects
    simp only [validateSchemaAndObjects, effectiveSchema, State.schema?_eq hwhole, hnone.2,
      hproposed] at hobjects
    by_cases hall : commit.mutations.all RuntimeMutation.isClaim = true
    · exact all_eq_true.mp hall _ hmutation
    · simp [hall, bind, Except.bind] at hobjects

theorem AuditEnvelope.isHex_of_accepted {digests : Digests} {read : Option ReadStamp}
    {commitId : String} {cursor : Nat} {previous : Option String} {audit : AuditEnvelope}
    (h : AuditEnvelope.acceptedCommitAtRead digests commit read commitId cursor previous =
      .ok audit) : IsHex audit.digest := by
  simp only [AuditEnvelope.acceptedCommitAtRead, AuditEnvelope.sealed, bind_eq_ok] at h
  obtain ⟨_, -, h⟩ := h
  obtain rfl := Except.ok.inj h
  exact digests.audit_hex _

theorem Reachable.isHex_headAudit (h : Reachable externals state) :
    ∀ digest ∈ state.headAudit, IsHex digest := by
  refine h.commit_induction (P := fun state => ∀ digest ∈ state.headAudit, IsHex digest)
    (by simp [State.headAudit, State.empty]) (fun _ _ => id) (fun _ _ => id) ?_
  intro state commit _ _ _ _ audit _ _ haccepted _ digest hdigest
  obtain ⟨read, henvelope⟩ := haccepted.envelope
  rw [State.headAudit, haccepted.effect] at hdigest
  obtain rfl : audit.digest = digest := by simpa using (Option.mem_filter_iff.mp hdigest).1
  exact AuditEnvelope.isHex_of_accepted henvelope

/-- The newest schema of a scope meets the demands of everything that was entered. -/
def Retained (state : State) (scope : ScopeId) : Prop :=
  ∀ schema ∈ schemaOf state.log scope, ∀ change ∈ state.log, change.scope = scope →
    (entered state.log change).isSome → ∀ validAt, Meets schema.tables validAt change

/-- At every instant the scope has a snapshot. -/
def Readable (externals : Externals) (state : State) (scope : ScopeId) : Prop :=
  ∀ read maxKeys validAt, readStampWith externals.digests state scope = .ok read →
    maxKeys ≠ 0 → externals.keysExamined state read RuntimeVersionedSource.all ≤ maxKeys →
    ∃ snapshot, dataSnapshot externals state scope validAt maxKeys = .ok snapshot

theorem mem_enteredChanges (h : Whole externals state) {change : RuntimeChange} :
    change ∈ enteredChanges state scope ↔
      change ∈ state.log ∧ change.scope = scope ∧ (entered state.log change).isSome := by
  rw [enteredChanges, h.visibleChanges_head, mem_filter, mem_filter, decide_eq_true_eq, and_assoc]

theorem Reachable.isClaim_of_mem_enteredChanges (h : Reachable externals state)
    (hschema : schemaOf state.log scope = none) :
    ∀ change ∈ enteredChanges state scope, change.mutation.isClaim = true := by
  intro change hmem
  obtain ⟨hlog, hscope, -⟩ := (mem_enteredChanges h.whole).mp hmem
  exact h.isClaim_of_schemaOf_eq_none hschema change hlog hscope

theorem visibleChanges_enteredChanges (state : State) (scope : ScopeId) :
    visibleChanges (enteredChanges state scope) scope state.cursor = enteredChanges state scope :=
  visibleChanges_filter_idem ..

theorem exists_fromClaimChanges {changes : List RuntimeChange}
    (h : ∀ change ∈ changes, change.mutation.isClaim = true) (scope : ScopeId)
    (validAt knownAtCursor : Nat) :
    ∃ snapshot, fromClaimChanges changes scope validAt knownAtCursor = .ok snapshot := by
  simp only [fromClaimChanges, bind_eq_ok]
  refine (exists_foldlM_eq_ok ?_ _).elim fun assembly hfold => ⟨_, assembly, hfold, rfl⟩
  intro change hmem assembly
  have hclaim := h change (mem_of_mem_filter hmem)
  cases hmutation : change.mutation with
  | claim claim => exact ⟨_, rfl⟩
  | _ => simp [hmutation, RuntimeMutation.isClaim] at hclaim

theorem readable_iff_retained (h : Reachable externals state)
    (hexact : Exact externals.digests state.log) (scope : ScopeId) :
    Readable externals state scope ↔ Retained state scope := by
  have hwhole := h.whole
  cases hschema : schemaOf state.log scope with
  | none =>
    refine iff_of_true ?_ (by simp [Retained, hschema])
    intro read maxKeys validAt hread hmax hkeys
    have hclaims := h.isClaim_of_mem_enteredChanges hschema
    obtain ⟨snapshot, hsnapshot⟩ := exists_fromClaimChanges hclaims scope validAt state.cursor
    refine ⟨snapshot, ?_⟩
    rw [hwhole.dataSnapshot hexact hread hmax hkeys, enteredSnapshot, hschema]
    exact lift_eq_ok.mpr hsnapshot
  | some schema =>
    have hiff : ∀ read maxKeys validAt, readStampWith externals.digests state scope = .ok read →
        maxKeys ≠ 0 → externals.keysExamined state read RuntimeVersionedSource.all ≤ maxKeys →
        ((∃ snapshot, dataSnapshot externals state scope validAt maxKeys = .ok snapshot) ↔
          ∀ change ∈ enteredChanges state scope, Meets schema.tables validAt change) := by
      intro read maxKeys validAt hread hmax hkeys
      simp only [hwhole.dataSnapshot hexact hread hmax hkeys, enteredSnapshot, hschema, lift_eq_ok,
        fromChanges_eq_ok, visibleChanges_enteredChanges]
      constructor
      · rintro ⟨snapshot, -, hmeets, -⟩
        exact hmeets
      · intro hmeets
        exact ⟨_, h.schema_validate hschema, hmeets, rfl⟩
    simp only [Retained, hschema, Option.mem_some_iff, forall_eq']
    constructor
    · intro hreadable change hlog hscope hentered validAt
      obtain ⟨read, hread⟩ := h.exists_stamp scope
      have hsnapshot := hreadable read _ validAt hread (Nat.succ_ne_zero _) (Nat.le_succ _)
      exact (hiff read _ validAt hread (Nat.succ_ne_zero _) (Nat.le_succ _)).mp hsnapshot change
        ((mem_enteredChanges hwhole).mpr ⟨hlog, hscope, hentered⟩)
    · intro hretained read maxKeys validAt hread hmax hkeys
      refine (hiff read maxKeys validAt hread hmax hkeys).mpr fun change hmem => ?_
      obtain ⟨hlog, hscope, hentered⟩ := (mem_enteredChanges hwhole).mp hmem
      exact hretained change hlog hscope hentered validAt

/-! ### Retiring what is current -/

/-- An identity is current at an instant: the last change that concerns it and is in
effect is a put whose window is open. -/
def CurrentAt (log : List RuntimeChange) (scope : ScopeId) (model : RuntimeLogicalModel)
    (reference : RuntimeRef) (validAt : Nat) : Prop :=
  ∃ change, latestChange (log.filter (·.scope = scope)) model.family reference validAt =
      some change ∧ change.mutation.retirement? = none ∧ change.mutation.openAt validAt = true

theorem entryOf_of_put (spaces : LogSpaces) {change : RuntimeChange}
    {family : RuntimeMutationFamily} {reference : RuntimeRef}
    (htarget : change.target = some (family, reference))
    (hput : change.mutation.retirement? = none) :
    ∃ space, VersionSpace.ofFamily family = some space ∧ spaces.entryOf change =
      some (familyPlace change space reference change.effectiveAt) := by
  unfold RuntimeChange.target at htarget
  unfold LogSpaces.entryOf RuntimeChange.effectiveAt
  cases hmutation : change.mutation with
  | retire retirement => simp [hmutation, RuntimeMutation.retirement?] at hput
  | claim | schema => simp [hmutation] at htarget
  | _ =>
    simp only [hmutation, Option.some.injEq, Prod.mk.injEq] at htarget
    obtain ⟨rfl, rfl⟩ := htarget
    exact ⟨_, rfl, rfl⟩

theorem admitSources_identity {model : RuntimeLogicalModel} {space : VersionSpace}
    (h : VersionSpace.ofFamily model.family = some space) (reference : RuntimeRef) :
    admitSources [.schema, .identity model reference] =
      .ok [(.schema, .schema), (.identity model reference,
        .versions space (some reference.kind) (.before reference.id) (.after reference.id))] := by
  simp [admitSources, admitSource, sourceInterval, versionSpaceForModel, h, Area.isEmpty, ensure,
    Area.overlaps, bind, Except.bind, pure, Except.pure]

theorem getLast?_filter_of_last {α : Type} {p : α → Bool} {l : List α} {a : α}
    (hlast : l.getLast? = some a) (hp : p a = true) : (l.filter p).getLast? = some a := by
  obtain ⟨init, rfl⟩ := getLast?_eq_some_iff.mp hlast
  simp [filter_append, hp]

def retirementCommit (state : State) (scope : ScopeId) (at_ : Nat) (actor : String)
    (retirement : RuntimeRetirement) : RuntimeCommit :=
  { scope, at_, actor, expectedCursor := state.cursor, mutations := [.retire retirement] }

/-- The store without a limit on the size of a write set. -/
def Externals.unlimited (externals : Externals) : Externals :=
  { externals with withinLimits := fun _ _ => .ok () }

theorem prepareSemanticCommit_of_unlimited {read : Option ReadStamp} {audit : Option AuditEnvelope}
    {outcome : RuntimeCommitOutcome} {writes : List Write}
    (h : prepareSemanticCommit externals.unlimited state commit read audit = .ok (outcome, writes))
    (hlimits : externals.withinLimits state writes = .ok ()) :
    prepareSemanticCommit externals state commit read audit = .ok (outcome, writes) := by
  simp only [prepareSemanticCommit, bind_eq_ok] at h ⊢
  obtain ⟨_, hvalid, _, hlive, _, hevidence, _, hcursor, accumulator, haccumulator, _, htargets,
    schema, hschema, _, hreferences, plan, hplan, indexWrites, hindex, envelope, henvelope, _,
    harchived, first, hfirst, firstClaim, hfirstClaim, _, -, hresult⟩ := h
  obtain ⟨rfl, rfl⟩ := Prod.mk.inj (Except.ok.inj hresult)
  exact ⟨(), hvalid, (), hlive, (), hevidence, (), hcursor, accumulator, haccumulator, (), htargets,
    schema, hschema, (), hreferences, plan, hplan, indexWrites, hindex, envelope, henvelope, (),
    harchived, first, hfirst, firstClaim, hfirstClaim, (), hlimits, rfl⟩

/-- The resources that a commit needs: counters below their limits, the keys of the check
of its retirements within their budget, index writes that can be made under the schema in
force, and a write set that fits. -/
structure Resourced (externals : Externals) (state : State) (commit : RuntimeCommit) : Prop where
  budget : state.cursor * 65 + 64 + 5 ≤ u64Max
  keys : ∀ read, readStampWith externals.digests state commit.scope = .ok read →
    externals.keysExamined state read (.schema ::
      (commit.mutations.filterMap RuntimeMutation.retirement?).map fun retirement =>
        .identity retirement.model retirement.reference) ≤ state.cursor * 65 + 64 + 5
  watermark : state.claims.watermark < u64Max
  index : ∀ schema ∈ schemaOf state.log commit.scope, ∃ writes, externals.indexEffects state
    commit schema (state.catalogRevision commit.scope) state.cursor = .ok writes
  limits : ∀ outcome writes, prepareSemanticCommit externals.unlimited state commit none none =
    .ok (outcome, writes) → externals.withinLimits state writes = .ok ()

theorem Plan.exists_add_retirement {plan : Plan} (hbound : plan.cursor < u64Max)
    (hsize : plan.accumulator.treeSize = plan.cursor) (retirement : RuntimeRetirement) :
    ∃ plan', plan.add externals state commit (.retire retirement) = .ok plan' := by
  simp only [Plan.add, encodeMutationClaim, LogLeaves.appendChange, bind_eq_ok,
    next_eq_ok, ensure_eq_ok]
  refine ⟨_, _, rfl, _, ⟨hbound, rfl⟩, _, ⟨(), ⟨?_, ?_⟩, (), ?_, rfl⟩, rfl⟩
  · exact RuntimeChange.verifyDigest_committed ..
  · rw [hsize]
    rfl
  · rw [hsize]
    exact hbound

theorem validateRecordUniqueness_nil (schema : RuntimeSchemaRegistry) :
    schema.validateRecordUniqueness [] = .ok () := by
  simp only [RuntimeSchemaRegistry.validateRecordUniqueness, forM_eq_ok, ensure_eq_ok]
  intro _ _ _ _
  rfl

theorem validateRelationCardinality_nil (schema : RuntimeSchemaRegistry) :
    schema.validateRelationCardinality [] = .ok () := by
  simp only [RuntimeSchemaRegistry.validateRelationCardinality, forM_eq_ok, filter_nil,
    RuntimeSchemaRegistry.validateKindCardinality, bind_eq_ok]
  intro entry _
  refine ⟨(), ?_, (), fun _ _ => rfl, fun _ _ => rfl⟩
  split <;> rfl

section Retirement

variable (h : Reachable externals state) (hexact : Exact externals.digests state.log)
  (hschema : schemaOf state.log scope = some schema)
  (hmodel : ∃ table, schema.tables.find? retirement.reference.kind = some table ∧
    table.model = retirement.model)

include h hschema hmodel

/-- Without new rows there is nothing to constrain. -/
theorem validateSchemaAndObjects_retirement :
    validateSchemaAndObjects state (retirementCommit state scope at_ actor retirement) =
      .ok (some schema) := by
  have hvalid := h.schema_validate hschema
  obtain ⟨table, htable, hmodel⟩ := hmodel
  have hobjects : schema.validateObjects [.retire retirement] [] [] = .ok () := by
    simp only [RuntimeSchemaRegistry.validateObjects, bind_eq_ok, forM_eq_ok]
    refine ⟨(), hvalid, _, RuntimeSchemaRegistry.catalogueTables_of_validate hvalid, (), ?_, (),
      validateRecordUniqueness_nil schema, validateRelationCardinality_nil schema⟩
    intro mutation hmutation
    obtain rfl := mem_singleton.mp hmutation
    simp [RuntimeSchemaRegistry.validateMutation, htable, hmodel]
  have hload : loadConstraints state (retirementCommit state scope at_ actor retirement) schema
      false = .ok ([], []) := rfl
  unfold validateSchemaAndObjects effectiveSchema
  have hcurrent : state.schema? scope = some schema := (State.schema?_eq h.whole scope).trans hschema
  simp only [retirementCommit] at hload ⊢
  simp [hcurrent, RuntimeMutation.schema?, hload, hobjects, lift, Except.mapError, bind, Except.bind,
    pure, Except.pure]

variable (hretained : Retained state scope) (hcurrent : CurrentAt state.log scope retirement.model
    retirement.reference retirement.effectiveAt)
  (hresources : Resourced externals state (retirementCommit state scope at_ actor retirement))

include hexact hretained hcurrent hresources

theorem validateRetirementTargets_of_current :
    validateRetirementTargets externals state (retirementCommit state scope at_ actor retirement)
      state.cursor = .ok () := by
  have hwhole := h.whole
  obtain ⟨change, hlatest, hput, hopen⟩ := hcurrent
  obtain ⟨hmem, htarget, hat⟩ := latestChange_eq_some hlatest
  rw [mem_filter, decide_eq_true_eq] at hmem
  have hput' : ∃ space, VersionSpace.ofFamily retirement.model.family = some space ∧
      entered state.log change = some (familyPlace change space retirement.reference
        change.effectiveAt) := entryOf_of_put _ htarget hput
  obtain ⟨space, hspace, hplace⟩ := hput'
  obtain ⟨read, hread⟩ := h.exists_stamp scope
  obtain ⟨rfl, hstamp⟩ := hwhole.stampOf hread
  have hcursor : read.commitCursor = state.cursor := by rw [hstamp.cursor, hwhole.cursor]
  let step : List (RuntimeVersionedSource × Area) :=
    [(.schema, .schema), (.identity retirement.model retirement.reference,
      .versions space (some retirement.reference.kind) (.before retirement.reference.id)
        (.after retirement.reference.id))]
  have hstep := admitSources_identity hspace retirement.reference
  have hchanges := hwhole.readVersioned prefix_rfl hstamp hexact (by simp) (by
    simp [RuntimeVersionedSource.isAdjacency]) hstep (Nat.succ_ne_zero _) (hresources.keys read hread)
  have hschemaRead : ∀ change ∈ state.log, change.scope = read.scope →
      change.mutation.schema?.isSome → isRead state.log read.scope step change = true := by
    intro other _ hscope hsome
    have hplace : entered state.log other = some (.schema (schemaVersionKey other.scope
      other.cursor)) := LogSpaces.entryOf_eq_schema_iff.mpr ⟨hsome, rfl⟩
    simp [isRead, hplace, step, Area.holds, schemaVersionKey, hscope]
  have hisRead : isRead state.log read.scope step change = true := by
    simp only [isRead, hplace, Option.any_some, any_eq_true]
    refine ⟨_, mem_cons_of_mem _ (mem_cons_self ..), ?_⟩
    simp only [familyPlace, Area.holds, versionKey, ofLex_toLex, Bool.and_eq_true,
      inInterval_identity]
    simp [hmem.2]
  have hat' := hwhole.schemaAtRead hstamp hschema hschemaRead
  -- the changes that are read were entered, so the schema meets their demands
  have hmeets : ∀ other ∈ visibleChanges ((visibleChanges state.log read.scope
      read.commitCursor).filter (isRead state.log read.scope step)) read.scope state.cursor,
      Meets schema.tables retirement.effectiveAt other := by
    intro other hother
    rw [← hcursor, visibleChanges_filter_idem, mem_filter] at hother
    obtain ⟨hvisible, hisRead'⟩ := hother
    refine hretained schema hschema other (mem_of_mem_filter hvisible)
      (scope_of_isRead hisRead').symm ?_ _
    rw [isRead] at hisRead'
    exact Option.isSome_of_any hisRead'
  have hlatest' : latestChange (visibleChanges ((visibleChanges state.log read.scope
      read.commitCursor).filter (isRead state.log read.scope step)) read.scope state.cursor)
      retirement.model.family retirement.reference retirement.effectiveAt = some change := by
    rw [← hcursor, visibleChanges_filter_idem, hcursor, hwhole.visibleChanges_head, latestChange,
      filter_comm]
    exact getLast?_filter_of_last hlatest hisRead
  unfold validateRetirementTargets
  rw [if_neg (by simp [retirementCommit, RuntimeMutation.retirement?])]
  simp only [bind_eq_ok, ensure_eq_ok, forM_eq_ok, lift_eq_ok, authenticatedHistoryIntegrity]
  refine ⟨read, hread, (), hcursor, _, ⟨(), hresources.budget, rfl⟩, _, hchanges, schema, hat', ?_⟩
  intro other hother
  obtain rfl := mem_singleton.mp hother
  refine ⟨_, fromChanges_eq_ok.mpr ⟨h.schema_validate hschema, hmeets, rfl⟩, ?_⟩
  obtain ⟨table, htable, hmodel⟩ := hmodel
  rw [← hmodel] at hlatest' ⊢
  exact contains_of_latestChange hmeets _ _ _ htable hlatest' hput hopen

/-- Where the newest schema meets everything that was entered, the retirement of a current
identity is accepted. -/
theorem exists_prepare_retirement (hactor : checkText "runtime actor" actor = .ok ())
    (hat : retirement.effectiveAt ≠ 0) :
    ∃ outcome writes, prepareSemanticCommit externals state
      (retirementCommit state scope at_ actor retirement) none none = .ok (outcome, writes) := by
  have hwhole := h.whole
  have hclaim : retirement.model ≠ .reasoningClaim := by
    intro hclaim
    obtain ⟨change, hlatest, hput, -⟩ := hcurrent
    obtain ⟨space, hspace, -⟩ := entryOf_of_put .empty (latestChange_eq_some hlatest).2.1 hput
    simp [hclaim, RuntimeLogicalModel.family, VersionSpace.ofFamily] at hspace
  have hvalid : (retirementCommit state scope at_ actor retirement).validate externals.floats =
      .ok () := by
    simp [RuntimeCommit.validate, retirementCommit, hactor, RuntimeMutation.validate, ensure, hat,
      hclaim, Seen.identity, bind, Except.bind, pure, Except.pure]
  have hbound : state.cursor < u64Max := by
    have := hresources.budget
    omega
  have htargets := validateRetirementTargets_of_current h hexact hschema hmodel hretained hcurrent
    hresources
  have hobjects : validateSchemaAndObjects state
      (retirementCommit state scope at_ actor retirement) = .ok (some schema) :=
    validateSchemaAndObjects_retirement h hschema hmodel
  let start : Plan :=
    { cursor := state.cursor, claimSequence := state.claims.watermark
      previousDigest := state.headDigest, accumulator := ⟨state.log⟩, staged := .empty
      ordinal := 0, outboxCount := 0, writes := [] }
  have hadd : ∃ plan, start.add externals state (retirementCommit state scope at_ actor retirement)
      (.retire retirement) = .ok plan := by
    apply Plan.exists_add_retirement
    · exact hbound
    · exact hwhole.cursor.symm
  obtain ⟨plan, hplan⟩ := hadd
  obtain ⟨indexWrites, hindex⟩ := hresources.index schema hschema
  have hactor' : checkText "audit actor" actor = .ok () :=
    checkText_eq_ok.mpr (checkText_eq_ok.mp hactor)
  have henvelope : ∃ audit, AuditEnvelope.acceptedCommitAtRead externals.digests
      (retirementCommit state scope at_ actor retirement) none
      (externals.digests.commit (retirementCommit state scope at_ actor retirement)) plan.cursor
      state.headAudit = .ok audit :=
    AuditEnvelope.exists_acceptedCommit hactor' (externals.digests.commit_hex _) h.isHex_headAudit _
  obtain ⟨audit, haudit⟩ := henvelope
  have hfold : (retirementCommit state scope at_ actor retirement).mutations.foldlM
      (Plan.add externals state (retirementCommit state scope at_ actor retirement)) start =
        .ok plan := by
    show [RuntimeMutation.retire retirement].foldlM _ start = _
    rw [foldlM_cons, hplan]
    rfl
  have hunlimited : ∃ outcome writes, prepareSemanticCommit externals.unlimited state
      (retirementCommit state scope at_ actor retirement) none none = .ok (outcome, writes) := by
    simp only [prepareSemanticCommit, bind_eq_ok, ensure_eq_ok, lift_eq_ok]
    exact ⟨_, _, (), hvalid, (), by simp, (), rfl, (), rfl, _, hwhole.currentAccumulator, (),
      htargets, _, hobjects, (), rfl, plan, hfold, indexWrites, hindex, audit, haudit, (), by simp,
      _, next_eq_ok.mpr ⟨hbound, rfl⟩, _, next_eq_ok.mpr ⟨hresources.watermark, rfl⟩, (), rfl, rfl⟩
  obtain ⟨outcome, writes, hprepare⟩ := hunlimited
  exact ⟨outcome, writes, prepareSemanticCommit_of_unlimited hprepare
    (hresources.limits outcome writes hprepare)⟩

end Retirement

/-- The retirement of whatever is current is accepted, as far as the resources allow. -/
def Retirable (externals : Externals) (state : State) (scope : ScopeId) : Prop :=
  ∀ at_ actor retirement, checkText "runtime actor" actor = .ok () →
    retirement.effectiveAt ≠ 0 →
    CurrentAt state.log scope retirement.model retirement.reference retirement.effectiveAt →
    (∃ schema ∈ schemaOf state.log scope, ∃ table ∈
      schema.tables.find? retirement.reference.kind, table.model = retirement.model) →
    Resourced externals state (retirementCommit state scope at_ actor retirement) →
    ∃ outcome writes, prepareSemanticCommit externals state
      (retirementCommit state scope at_ actor retirement) none none = .ok (outcome, writes)

/-- A second revision of the schema drops the table of the relations. -/
def droppedTable : List Request :=
  [.plain (proposal 0 [.schema graphSchema, .record node, .relation link]),
    .plain (proposal 3 [.schema
      { graphSchema with revision := 2, tables := .ofList [(nodeKind, .schemaless .graphNode)] }])]

end Rrflow.Store

import Rrflow.Store.ReadSpec

/-!
The version keyspaces as an index of the log.

A history hands out stamps, and commits keep them valid. At such a stamp a read of all
families returns the visible changes that were entered. The only changes that are not
entered are retirements of relations that have no current row: whether a retirement is
accepted is decided at its effective time, whether it is entered by the current rows.
-/

namespace Rrflow.Store

open Kernel Checks List RuntimeDataSnapshot

variable {externals : Externals}

variable {state : State} {read : ReadStamp}

/-- The stamps that a history of commits has handed out. -/
inductive Issued (externals : Externals) : State → ReadStamp → Prop
  | now {state : State} {scope : ScopeId} {read : ReadStamp} :
      Reachable externals state → readStampWith externals.digests state scope = .ok read →
      Issued externals state read
  | later {state : State} {read : ReadStamp} {commit : RuntimeCommit}
      {evidence : Option ReadStamp} {archivedAudit : Option AuditEnvelope}
      {outcome : RuntimeCommitOutcome} {writes : List Write} :
      Issued externals state read →
      prepareSemanticCommit externals state commit evidence archivedAudit = .ok (outcome, writes) →
      Issued externals (state.applyAll writes) read

theorem Issued.stampOf (h : Issued externals state read) :
    Whole externals state ∧ ∃ log, log <+: state.log ∧
      StampOf externals.digests log (state.catalogRevision read.scope) read := by
  induction h with
  | now hreachable hread =>
    obtain ⟨rfl, hstamp⟩ := hreachable.whole.stampOf hread
    exact ⟨hreachable.whole, _, prefix_rfl, hstamp⟩
  | later _ hprepare ih =>
    obtain ⟨hwhole, log, hlog, hstamp⟩ := ih
    obtain ⟨accumulator, schema, audit, indexWrites, haccepted⟩ :=
      prepareSemanticCommit_eq_ok hprepare
    obtain ⟨heq, hwhole'⟩ := haccepted.log_eq hwhole
    refine ⟨hwhole', log, ?_, ?_⟩
    · rw [heq]
      exact hlog.trans (prefix_append ..)
    · rw [haccepted.catalogRevision]
      exact hstamp

theorem Reachable.schema_validate (h : Reachable externals state) {scope : ScopeId}
    {schema : RuntimeSchemaRegistry} (hschema : schemaOf state.log scope = some schema) :
    schema.validate = .ok () := by
  obtain ⟨change, hmem, hmutation⟩ := mem_of_schemaOf hschema
  exact Checked.schema (hmutation ▸ h.checked change hmem)

theorem Reachable.exists_stamp (h : Reachable externals state) (scope : ScopeId) :
    ∃ read, readStampWith externals.digests state scope = .ok read := by
  refine h.whole.exists_stamp fun schema hschema => ?_
  have hvalid := h.schema_validate hschema
  simp only [RuntimeSchemaRegistry.validate, bind_eq_ok, ensure_eq_ok] at hvalid
  exact hvalid.choose_spec.1

/-! ### Snapshots of the store and of the log -/

variable (changes : List RuntimeChange)

theorem visibleChanges_filter_idem (scope : ScopeId) (k : Nat) (p : RuntimeChange → Bool) :
    visibleChanges ((visibleChanges changes scope k).filter p) scope k =
      (visibleChanges changes scope k).filter p := by
  rw [visibleChanges, filter_eq_self]
  intro change hmem
  exact (mem_filter.mp (mem_of_mem_filter hmem)).2

theorem Whole.visibleChanges_head (h : Whole externals state) (scope : ScopeId) :
    visibleChanges state.log scope state.cursor = state.log.filter (·.scope = scope) := by
  refine filter_congr fun change hmem => ?_
  have hbounds := h.chain.cursor_bounds hmem
  have hcursor := h.cursor
  simp only [Bool.and_eq_right_iff_imp, decide_eq_true_eq]
  omega

theorem entered_isSome_of_schema {log : List RuntimeChange} {change : RuntimeChange}
    (h : change.mutation.schema?.isSome) : (entered log change).isSome := by
  rw [entered, LogSpaces.entryOf_eq_schema_iff.mpr ⟨h, rfl⟩]
  rfl

/-- Changes among which no schema is missing carry the schema of the log. -/
theorem Whole.schemaAtRead (h : Whole externals state)
    (hread : StampOf externals.digests state.log (state.catalogRevision read.scope) read)
    {schema : RuntimeSchemaRegistry} (hschema : schemaOf state.log read.scope = some schema)
    {p : RuntimeChange → Bool} (hp : ∀ change ∈ state.log, change.scope = read.scope →
      change.mutation.schema?.isSome → p change = true) :
    schemaAtRead read ((visibleChanges state.log read.scope read.commitCursor).filter p) =
      .ok schema := by
  have hlast : ((visibleChanges ((visibleChanges state.log read.scope
      read.commitCursor).filter p) read.scope read.commitCursor).filterMap
        fun change => change.mutation.schema?).getLast? = some schema := by
    rw [visibleChanges_filter_idem, ← hschema, schemaOf, hread.cursor, ← h.cursor,
      h.visibleChanges_head, getLast?_filterMap, getLast?_filterMap, filter_filter]
    congr 2
    refine filter_congr fun change hmem => ?_
    rw [mem_filter, decide_eq_true_eq] at hmem
    rw [Bool.and_eq_left_iff_imp]
    exact hp change hmem.1 hmem.2
  simp only [Store.schemaAtRead, hread.schema, hschema, Option.map_some, hlast]
  rfl

def logSnapshot (state : State) (scope : ScopeId) (validAt : Nat) :
    Except Error RuntimeDataSnapshot :=
  match schemaOf state.log scope with
  | some schema => lift (fromChanges state.log schema scope validAt state.cursor)
  | none => lift (fromClaimChanges state.log scope validAt state.cursor)

def enteredChanges (state : State) (scope : ScopeId) : List RuntimeChange :=
  (visibleChanges state.log scope state.cursor).filter
    fun change => (entered state.log change).isSome

/-- The snapshot of the changes that were entered. -/
def enteredSnapshot (state : State) (scope : ScopeId) (validAt : Nat) :
    Except Error RuntimeDataSnapshot :=
  match schemaOf state.log scope with
  | some schema =>
    lift (fromChanges (enteredChanges state scope) schema scope validAt state.cursor)
  | none => lift (fromClaimChanges (enteredChanges state scope) scope validAt state.cursor)

section

variable (h : Whole externals state) {scope : ScopeId} {maxKeys : Nat}

include h

theorem Whole.dataSnapshot_of_read (hread : readStampWith externals.digests state scope = .ok read)
    (hchanges : Store.readVersioned externals state read RuntimeVersionedSource.all maxKeys =
      .ok ((visibleChanges state.log read.scope read.commitCursor).filter
        fun change => (entered state.log change).isSome)) (validAt : Nat) :
    dataSnapshot externals state scope validAt maxKeys = enteredSnapshot state scope validAt := by
  obtain ⟨rfl, hstamp⟩ := h.stampOf hread
  have hcursor : read.commitCursor = state.cursor := by rw [hstamp.cursor, h.cursor]
  unfold Store.dataSnapshot enteredSnapshot
  simp only [hread, hchanges, bind, Except.bind]
  cases hschema : schemaOf state.log read.scope with
  | none => simp [hstamp.schema, hschema, enteredChanges, hcursor]
  | some schema =>
    have hat := h.schemaAtRead (p := fun change => (entered state.log change).isSome) hstamp
      hschema fun change _ _ => entered_isSome_of_schema
    rw [hcursor] at hat
    simp [hstamp.schema, hschema, hat, enteredChanges, hcursor]

theorem Whole.dataSnapshot (hexact : Exact externals.digests state.log)
    (hread : readStampWith externals.digests state scope = .ok read) (hmax : maxKeys ≠ 0)
    (hkeys : externals.keysExamined state read RuntimeVersionedSource.all ≤ maxKeys)
    (validAt : Nat) :
    Store.dataSnapshot externals state scope validAt maxKeys =
      enteredSnapshot state scope validAt := by
  obtain ⟨rfl, hstamp⟩ := h.stampOf hread
  exact h.dataSnapshot_of_read hread
    (h.readVersioned_all prefix_rfl hstamp hexact hmax hkeys) validAt

/-- Where there is a snapshot at one instant, every change of the scope was read back. -/
theorem Whole.of_dataSnapshot {at_ : Nat} {snapshot : RuntimeDataSnapshot}
    (hok : Store.dataSnapshot externals state scope at_ maxKeys = .ok snapshot) :
    Exact externals.digests (enteredChanges state scope) ∧
      ∀ validAt, Store.dataSnapshot externals state scope validAt maxKeys =
        enteredSnapshot state scope validAt := by
  have hok' := hok
  rw [Store.dataSnapshot, bind_eq_ok] at hok'
  obtain ⟨read, hread, hok'⟩ := hok'
  rw [bind_eq_ok] at hok'
  obtain ⟨changes, hchanges, -⟩ := hok'
  obtain ⟨rfl, hexact⟩ := h.of_readVersioned (by decide) admitSources_all hchanges
  rw [filter_isRead_allSteps] at hchanges hexact
  refine ⟨?_, h.dataSnapshot_of_read hread hchanges⟩
  obtain ⟨rfl, hstamp⟩ := h.stampOf hread
  rwa [hstamp.cursor, ← h.cursor] at hexact

end

theorem fromChanges_visibleChanges (schema : RuntimeSchemaRegistry) (scope : ScopeId)
    (validAt k : Nat) : fromChanges (visibleChanges changes scope k) schema scope validAt k =
      fromChanges changes schema scope validAt k := by
  have hidem := visibleChanges_filter_idem changes scope k fun _ => true
  rw [filter_true] at hidem
  simp only [fromChanges, hidem]

theorem fromClaimChanges_visibleChanges (scope : ScopeId) (validAt k : Nat) :
    fromClaimChanges (visibleChanges changes scope k) scope validAt k =
      fromClaimChanges changes scope validAt k := by
  have hidem := visibleChanges_filter_idem changes scope k fun _ => true
  rw [filter_true] at hidem
  simp only [fromClaimChanges, hidem]

/-- The version keyspaces answer for the log: at every stamp of the history a read of all
families returns the visible changes, and the snapshots of the store are those of the
log. -/
structure IndexComplete (externals : Externals) (state : State) (scope : ScopeId) : Prop where
  reads : ∀ read maxKeys, Issued externals state read → read.scope = scope → maxKeys ≠ 0 →
    externals.keysExamined state read RuntimeVersionedSource.all ≤ maxKeys →
    readVersioned externals state read RuntimeVersionedSource.all maxKeys =
      .ok (visibleChanges state.log scope read.commitCursor)
  snapshots : ∀ read maxKeys validAt, readStampWith externals.digests state scope = .ok read →
    maxKeys ≠ 0 → externals.keysExamined state read RuntimeVersionedSource.all ≤ maxKeys →
    dataSnapshot externals state scope validAt maxKeys = logSnapshot state scope validAt

def FoundRow (log : List RuntimeChange) (change : RuntimeChange) : Prop :=
  ∀ retirement ∈ change.mutation.retirement?, retirement.model = .graphRelation →
    ((replay (log.take (change.cursor - 1))).relation? change.scope retirement.reference).isSome

instance (log : List RuntimeChange) (change : RuntimeChange) : Decidable (FoundRow log change) :=
  inferInstanceAs (Decidable (∀ retirement ∈ change.mutation.retirement?, _ → _))

theorem entered_isSome_iff {floats : Floats} {log : List RuntimeChange} {change : RuntimeChange}
    (h : Checked floats change.mutation) : (entered log change).isSome ↔ FoundRow log change := by
  unfold entered LogSpaces.entryOf FoundRow
  cases hmutation : change.mutation with
  | retire retirement =>
    have hmodel := Checked.retire (hmutation ▸ h)
    have hspace : (VersionSpace.ofFamily retirement.model.family).isSome := by
      cases hcase : retirement.model <;> simp_all [RuntimeLogicalModel.family,
        VersionSpace.ofFamily]
    have hfamily : retirement.model.family = .relation ↔ retirement.model = .graphRelation := by
      cases retirement.model <;> decide
    simp only [hfamily, RuntimeMutation.retirement?, Option.mem_some_iff, forall_eq']
    split
    · rename_i hnone
      simp [hnone]
    · rename_i hsome
      rw [Option.isSome_map]
      refine ⟨fun _ hrelation => ?_, fun _ => hspace⟩
      exact Option.isSome_iff_ne_none.mpr fun hnone => hsome ⟨hrelation, hnone⟩
  | _ => simp [RuntimeMutation.retirement?]

theorem node_valid : checkCanonical "runtime type" "node" = .ok () := by decide

theorem link_valid : checkCanonical "runtime type" "link" = .ok () := by decide

theorem a_valid : checkCanonical "runtime id" "a" = .ok () ∨
    ∃ cursor : Nat, "a" = eventIdStart ++ toString cursor := .inl (by decide)

def nodeKind : RuntimeType := ⟨"node", node_valid⟩

def linkKind : RuntimeType := ⟨"link", link_valid⟩

def graphSchema : RuntimeSchemaRegistry :=
  { revision := 1, migration := "graph", organisation := .default_
    tables := .ofList [(nodeKind, .schemaless .graphNode), (linkKind, .schemaless .graphRelation)]
    records := .empty, relations := .empty, events := .empty }

def node : RuntimeRecord :=
  { reference := .of nodeKind ⟨"a", a_valid⟩, validFrom := 10, validTo := none
    properties := .empty }

def link : RuntimeRelation :=
  { reference := .of linkKind ⟨"a", a_valid⟩, from_ := node.reference
    to_ := node.reference, validFrom := 10, validTo := none, properties := .empty }

def retireLink (effectiveAt : Nat) : RuntimeMutation :=
  .retire { model := .graphRelation, reference := link.reference, effectiveAt }

/-- A relation is retired at 100 and then, while it is still there at 50, at 50. -/
def retiredTwice : List Request :=
  [.plain (proposal 0 [.schema graphSchema, .record node, .relation link]),
    .plain (proposal 3 [retireLink 100]), .plain (proposal 4 [retireLink 50])]

end Rrflow.Store

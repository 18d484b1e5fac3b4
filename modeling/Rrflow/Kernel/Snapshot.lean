import Rrflow.Kernel.Runtime

/-!
The data of a scope at an instant of valid time and a cursor.

A snapshot is assembled by one pass over the changes. Every change whose time has
come by the instant must have a table of the right model in the schema of the
snapshot; otherwise there is no snapshot at all.
-/

namespace Rrflow.Kernel

open Checks

variable {schema : RuntimeSchemaRegistry} {validAt : Nat}

structure RuntimeModelValue (α : Type) where
  model : RuntimeLogicalModel
  value : α
  deriving DecidableEq

structure RuntimeEventValue where
  reference : RuntimeRef
  occurredAt : Nat
  event : RuntimeEvent
  deriving DecidableEq

structure RuntimeDataSnapshot where
  scope : ScopeId
  validAt : Nat
  knownAtCursor : Nat
  schemaRevision : Nat
  claims : List Claim
  records : List (RuntimeModelValue RuntimeRecord)
  relations : List (RuntimeModelValue RuntimeRelation)
  events : List (RuntimeModelValue RuntimeEventValue)
  vectors : List (RuntimeModelValue RuntimeVector)
  series : List (RuntimeModelValue RuntimeSeriesSample)
  geo : List (RuntimeModelValue RuntimeGeo)
  objects : List (RuntimeModelValue ObjectReference)
  deriving DecidableEq

abbrev Values (α : Type) := SortedMap RuntimeRef (RuntimeModelValue α)

structure Assembly where
  claims : SortedMap (Subject ×ₗ Predicate) (List Claim)
  records : Values RuntimeRecord
  relations : Values RuntimeRelation
  events : Values RuntimeEventValue
  vectors : Values RuntimeVector
  series : Values RuntimeSeriesSample
  geo : Values RuntimeGeo
  objects : Values ObjectReference

variable (assembly : Assembly)

variable (change : RuntimeChange)

namespace Assembly

def empty : Assembly :=
  { claims := .empty, records := .empty, relations := .empty, events := .empty, vectors := .empty
    series := .empty, geo := .empty, objects := .empty }

def addClaim (claim : Claim) : Assembly :=
  { assembly with claims := assembly.claims.push (toLex (claim.subject, claim.predicate)) claim }

/-- A retirement removes the identity from the map of its model. -/
def retireDataIdentity (retirement : RuntimeRetirement) : Assembly :=
  let reference := retirement.reference
  match retirement.model.family with
  | .record => { assembly with records := assembly.records.erase reference }
  | .relation => { assembly with relations := assembly.relations.erase reference }
  | .event => { assembly with events := assembly.events.erase reference }
  | .vector => { assembly with vectors := assembly.vectors.erase reference }
  | .series => { assembly with series := assembly.series.erase reference }
  | .geo => { assembly with geo := assembly.geo.erase reference }
  | .object => { assembly with objects := assembly.objects.erase reference }
  | .claim => assembly

/-- The effect of a change whose table has the model. -/
def write (model : RuntimeLogicalModel) : Assembly :=
  match change.mutation with
  | .record value =>
    { assembly with records := assembly.records.insert value.reference { model, value } }
  | .relation value =>
    { assembly with relations := assembly.relations.insert value.reference { model, value } }
  | .event event =>
    let reference := RuntimeRef.event event.kind change.cursor
    let value : RuntimeEventValue := { reference, occurredAt := change.at_, event }
    { assembly with events := assembly.events.insert reference { model, value } }
  | .vector value =>
    { assembly with vectors := assembly.vectors.insert value.reference { model, value } }
  | .seriesSample value =>
    { assembly with series := assembly.series.insert value.reference { model, value } }
  | .geo value => { assembly with geo := assembly.geo.insert value.reference { model, value } }
  | .object value =>
    { assembly with objects := assembly.objects.insert value.reference { model, value } }
  | .retire retirement => assembly.retireDataIdentity retirement
  | .claim _ | .schema _ => assembly

/-- The effect of a change without a demand: only claims are collected. -/
def pass : Assembly :=
  match change.mutation with
  | .claim claim => assembly.addClaim claim
  | _ => assembly

end Assembly

/-- What a change asks of the catalogue. -/
structure Demand where
  reference : RuntimeRef
  accepts : RuntimeLogicalModel → Bool
  expected : String

/-- The demand of a change whose time has come by an instant. -/
def RuntimeChange.demand (validAt : Nat) : Option Demand :=
  match change.mutation with
  | .claim _ | .schema _ => none
  | .record value => if value.validFrom ≤ validAt then
      some ⟨value.reference, RuntimeLogicalModel.isRecordLike, "record"⟩ else none
  | .relation value => if value.validFrom ≤ validAt then
      some ⟨value.reference, (· = .graphRelation), "graph relation"⟩ else none
  | .event event => if change.at_ ≤ validAt then
      some ⟨.event event.kind change.cursor, RuntimeLogicalModel.isEventLike, "event"⟩ else none
  | .vector value => if value.validFrom ≤ validAt then
      some ⟨value.reference, (· = .vector), "vector"⟩ else none
  | .seriesSample sample => if sample.observedAt ≤ validAt then
      some ⟨sample.reference, (· = .timeSeries), "time-series sample"⟩ else none
  | .geo value => if value.validFrom ≤ validAt then
      some ⟨value.reference, (· = .geo), "geo value"⟩ else none
  | .object value => if change.at_ ≤ validAt then
      some ⟨value.reference, (· = .object), "object reference"⟩ else none
  | .retire retirement => if retirement.effectiveAt ≤ validAt then
      some ⟨retirement.reference, (· = retirement.model), "retirement"⟩ else none

def modelFor (schema : RuntimeSchemaRegistry) (tables : Tables) (reference : RuntimeRef) :
    Except Error RuntimeLogicalModel :=
  match tables.find? reference.kind with
  | some table => .ok table.model
  | none => invalid ("runtime value type " ++ reference.kind.val ++
      " is absent from schema revision " ++ toString schema.revision)

def Assembly.step (schema : RuntimeSchemaRegistry) (tables : Tables) (validAt : Nat)
    (assembly : Assembly) (change : RuntimeChange) : Except Error Assembly :=
  match change.demand validAt with
  | none => .ok (assembly.pass change)
  | some demand => do
      let model ← modelFor schema tables demand.reference
      ensure (demand.accepts model)
        (.invalidRuntime ("catalogue model " ++ model.debug ++ " for " ++ demand.reference.text ++
          " cannot be read as " ++ demand.expected))
      return assembly.write change model

/-- The claim in force of every pair, in the order of the pairs. -/
def resolveSnapshotClaims (claims : SortedMap (Subject ×ₗ Predicate) (List Claim))
    (validAt : Nat) : List Claim :=
  claims.values.filterMap fun versions =>
    resolveAsOf (versions.insertionSort NewestFirst) validAt

variable (changes : List RuntimeChange)

variable (scope : ScopeId)

def visibleChanges (knownAtCursor : Nat) : List RuntimeChange :=
  changes.filter fun change => change.cursor ≤ knownAtCursor && change.scope = scope

namespace RuntimeDataSnapshot

/-- The snapshot of an assembly: values whose window is over are left out. -/
def ofAssembly (validAt knownAtCursor schemaRevision : Nat) : RuntimeDataSnapshot :=
  { scope, validAt, knownAtCursor, schemaRevision
    claims := resolveSnapshotClaims assembly.claims validAt
    records := assembly.records.values.filter fun entry =>
      validAtWindow entry.value.validFrom entry.value.validTo validAt
    relations := assembly.relations.values.filter fun entry =>
      validAtWindow entry.value.validFrom entry.value.validTo validAt
    events := assembly.events.values
    vectors := assembly.vectors.values.filter fun entry =>
      validAtWindow entry.value.validFrom entry.value.validTo validAt
    series := assembly.series.values
    geo := assembly.geo.values.filter fun entry =>
      validAtWindow entry.value.validFrom entry.value.validTo validAt
    objects := assembly.objects.values }

def fromChanges (schema : RuntimeSchemaRegistry) (scope : ScopeId) (validAt knownAtCursor : Nat) :
    Except Error RuntimeDataSnapshot := do
  schema.validate
  let tables ← schema.catalogueTables
  let assembly ← (visibleChanges changes scope knownAtCursor).foldlM
    (Assembly.step schema tables validAt) .empty
  return ofAssembly assembly scope validAt knownAtCursor schema.revision

/-- A log of claims alone needs no schema. -/
def fromClaimChanges (validAt knownAtCursor : Nat) : Except Error RuntimeDataSnapshot := do
  let assembly ← (visibleChanges changes scope knownAtCursor).foldlM (fun assembly change =>
    match change.mutation with
    | .claim claim => .ok (assembly.addClaim claim)
    | _ => invalid ("runtime mutation at cursor " ++ toString change.cursor ++
        " requires a schema before snapshot assembly")) Assembly.empty
  return ofAssembly assembly scope validAt knownAtCursor 0

/-- Whether an identity is part of a snapshot under a model. -/
def contains (snapshot : RuntimeDataSnapshot) (model : RuntimeLogicalModel)
    (reference : RuntimeRef) : Bool :=
  match model.family with
  | .record => snapshot.records.any fun entry =>
    entry.model = model && entry.value.reference = reference
  | .relation => snapshot.relations.any fun entry =>
    entry.model = model && entry.value.reference = reference
  | .event => snapshot.events.any fun entry =>
    entry.model = model && entry.value.reference = reference
  | .vector => snapshot.vectors.any fun entry => entry.value.reference = reference
  | .series => snapshot.series.any fun entry => entry.value.reference = reference
  | .geo => snapshot.geo.any fun entry => entry.value.reference = reference
  | .object => snapshot.objects.any fun entry => entry.value.reference = reference
  | .claim => false

end RuntimeDataSnapshot

variable (tables : Tables)

def Meets (validAt : Nat) (change : RuntimeChange) : Prop :=
  ∀ demand ∈ change.demand validAt,
    ∃ table, tables.find? demand.reference.kind = some table ∧ demand.accepts table.model = true

instance (tables : Tables) (validAt : Nat) (change : RuntimeChange) :
    Decidable (Meets tables validAt change) :=
  match h : change.demand validAt with
  | none => isTrue (by simp [Meets, h])
  | some demand =>
    match htable : tables.find? demand.reference.kind with
    | none => isFalse (by simp [Meets, h, htable])
    | some table => decidable_of_iff (demand.accepts table.model = true) (by
        simp [Meets, h, htable])

/-- The effect of a change on the maps when its demand is met. -/
def Assembly.advance (validAt : Nat) (assembly : Assembly) (change : RuntimeChange) : Assembly :=
  match change.demand validAt with
  | none => assembly.pass change
  | some demand =>
    match tables.find? demand.reference.kind with
    | none => assembly
    | some table => assembly.write change table.model

theorem Assembly.step_eq_ok {tables : Tables} {assembly assembly' : Assembly}
    {change : RuntimeChange} :
    assembly.step schema tables validAt change = .ok assembly' ↔
      Meets tables validAt change ∧ assembly' = assembly.advance tables validAt change := by
  unfold step advance Meets
  cases hdemand : change.demand validAt with
  | none => simpa using eq_comm
  | some demand =>
    cases htable : tables.find? demand.reference.kind with
    | none => simp [modelFor, htable, invalid, bind, Except.bind]
    | some table =>
      by_cases haccepts : demand.accepts table.model = true
      · simpa [modelFor, htable, haccepts, bind, Except.bind, ensure, pure, Except.pure] using
          eq_comm
      · simp [modelFor, htable, haccepts, bind, Except.bind, ensure]

theorem Assembly.foldlM_step {tables : Tables} {changes : List RuntimeChange}
    {assembly assembly' : Assembly} :
    changes.foldlM (Assembly.step schema tables validAt) assembly = .ok assembly' ↔
      (∀ change ∈ changes, Meets tables validAt change) ∧
        assembly' = changes.foldl (Assembly.advance tables validAt) assembly := by
  refine foldlM_eq_ok ?_
  intro assembly change assembly'
  exact Assembly.step_eq_ok

theorem Assembly.claims_foldl_advance (validAt : Nat) (changes : List RuntimeChange)
    (assembly : Assembly) : (changes.foldl (Assembly.advance tables validAt) assembly).claims =
      (changes.filterMap fun change => change.mutation.claim?).foldl
        (fun claims claim => claims.push (toLex (claim.subject, claim.predicate)) claim)
        assembly.claims := by
  induction changes generalizing assembly with
  | nil => rfl
  | cons change rest ih =>
    have hstep : (assembly.advance tables validAt change).claims =
        (change.mutation.claim?.elim assembly.claims fun claim =>
          assembly.claims.push (toLex (claim.subject, claim.predicate)) claim) := by
      unfold advance pass write RuntimeChange.demand
      cases hmutation : change.mutation with
      | retire retirement =>
        simp only [RuntimeMutation.claim?, Option.elim_none, retireDataIdentity]
        repeat' split
        all_goals rfl
      | _ =>
        simp only [RuntimeMutation.claim?, Option.elim_none, Option.elim_some, addClaim]
        repeat' split
        all_goals rfl
    rw [List.foldl_cons, ih, hstep]
    cases hclaim : change.mutation.claim? <;> simp [hclaim]

/-- There is a snapshot exactly when the schema passes its checks and meets the
demands of all visible changes. -/
theorem RuntimeDataSnapshot.fromChanges_eq_ok {changes : List RuntimeChange} {scope : ScopeId}
    {knownAtCursor : Nat} {snapshot : RuntimeDataSnapshot} :
    fromChanges changes schema scope validAt knownAtCursor = .ok snapshot ↔
      schema.validate = .ok () ∧
      (∀ change ∈ visibleChanges changes scope knownAtCursor, Meets schema.tables validAt change) ∧
      snapshot = ofAssembly ((visibleChanges changes scope knownAtCursor).foldl
        (Assembly.advance schema.tables validAt) .empty) scope validAt knownAtCursor
        schema.revision := by
  simp only [fromChanges, bind_eq_ok, pure, Except.pure, Except.ok.injEq]
  constructor
  · rintro ⟨_, hvalid, tables, htables, assembly, hfold, rfl⟩
    obtain rfl := RuntimeSchemaRegistry.catalogueTables_eq_ok htables
    obtain ⟨hmeets, rfl⟩ := Assembly.foldlM_step.mp hfold
    exact ⟨hvalid, hmeets, rfl⟩
  · rintro ⟨hvalid, hmeets, rfl⟩
    exact ⟨(), hvalid, _, RuntimeSchemaRegistry.catalogueTables_of_validate hvalid, _,
      Assembly.foldlM_step.mpr ⟨hmeets, rfl⟩, rfl⟩

def versionsOf (log : List Claim) (subject : Subject) (predicate : Predicate) : List Claim :=
  log.filter fun claim => claim.subject = subject ∧ claim.predicate = predicate

theorem mem_resolveSnapshotClaims {log : List Claim} {claim : Claim} :
    claim ∈ resolveSnapshotClaims
      (SortedMap.groupBy (fun claim : Claim => toLex (claim.subject, claim.predicate)) log)
      validAt ↔ InForce validAt (versionsOf log claim.subject claim.predicate) claim := by
  have hgroup : ∀ subject predicate, (log.filter fun other =>
      toLex (other.subject, other.predicate) = toLex (subject, predicate)) =
      versionsOf log subject predicate := by
    intro subject predicate
    refine List.filter_congr fun other _ => ?_
    simp
  simp only [resolveSnapshotClaims, SortedMap.values, List.mem_filterMap, List.mem_map,
    resolveAsOf_newestFirst]
  constructor
  · rintro ⟨_, ⟨⟨key, versions⟩, hentry, rfl⟩, hforce⟩
    obtain ⟨-, hversions⟩ := SortedMap.find?_groupBy.mp (SortedMap.mem_toList_iff.mp hentry)
    have hmem := hforce.mem
    rw [hversions, List.mem_filter, decide_eq_true_eq] at hmem
    obtain ⟨-, rfl⟩ := hmem
    have hpair : versions = versionsOf log claim.subject claim.predicate :=
      hversions.trans (hgroup ..)
    exact hpair ▸ hforce
  · intro hforce
    refine ⟨_, ⟨(toLex (claim.subject, claim.predicate), _), ?_, rfl⟩, hforce⟩
    refine SortedMap.mem_toList_iff.mpr (SortedMap.find?_groupBy.mpr ⟨?_, (hgroup ..).symm⟩)
    exact List.ne_nil_of_mem hforce.mem

theorem RuntimeDataSnapshot.mem_claims_fromChanges {changes : List RuntimeChange} {scope : ScopeId}
    {knownAtCursor : Nat} {snapshot : RuntimeDataSnapshot} {claim : Claim}
    (h : fromChanges changes schema scope validAt knownAtCursor = .ok snapshot) :
    claim ∈ snapshot.claims ↔ InForce validAt (versionsOf
      ((visibleChanges changes scope knownAtCursor).filterMap fun change => change.mutation.claim?)
      claim.subject claim.predicate) claim := by
  obtain ⟨-, -, rfl⟩ := fromChanges_eq_ok.mp h
  rw [← mem_resolveSnapshotClaims, ofAssembly, Assembly.claims_foldl_advance]
  rfl

end Rrflow.Kernel

import Rrflow.Kernel.Claim
import Rrflow.Kernel.Schema

/-!
Commits of the runtime.

A commit is a list of mutations against one scope and one observed cursor. Once
the store has placed a mutation at a cursor it is a change; changes form one
hash-chained log.
-/

namespace Rrflow.Kernel

open Checks

structure RuntimeRecord where
  reference : RuntimeRef
  validFrom : Nat
  validTo : Option Nat
  properties : RuntimeProperties
  deriving DecidableEq

/-- One version of a directed edge. -/
structure RuntimeRelation where
  reference : RuntimeRef
  from_ : RuntimeRef
  to_ : RuntimeRef
  validFrom : Nat
  validTo : Option Nat
  properties : RuntimeProperties
  deriving DecidableEq

structure RuntimeEvent where
  kind : RuntimeType
  subject : Option RuntimeRef
  properties : RuntimeProperties
  deriving DecidableEq

structure RuntimeRetirement where
  model : RuntimeLogicalModel
  reference : RuntimeRef
  effectiveAt : Nat
  deriving DecidableEq

inductive RuntimeMutation
  | claim (claim : Claim)
  | schema (registry : RuntimeSchemaRegistry)
  | record (record : RuntimeRecord)
  | relation (relation : RuntimeRelation)
  | event (event : RuntimeEvent)
  | vector (vector : RuntimeVector)
  | seriesSample (sample : RuntimeSeriesSample)
  | geo (geo : RuntimeGeo)
  | object (object : ObjectReference)
  | retire (retirement : RuntimeRetirement)
  deriving DecidableEq

/-- The observed cursor makes concurrent writers into conflicts. -/
structure RuntimeCommit where
  scope : ScopeId
  at_ : Nat
  actor : String
  expectedCursor : Nat
  mutations : List RuntimeMutation
  deriving DecidableEq

structure RuntimeChange where
  cursor : Nat
  commitId : String
  commitOrdinal : Nat
  scope : ScopeId
  at_ : Nat
  actor : String
  mutation : RuntimeMutation
  previousDigest : Option String
  digest : String
  deriving DecidableEq

/-! ### Stored texts -/

/-- A claim as its JSON text is read back: a number that is not finite is written as null. -/
def Claim.stored (claim : Claim) : Claim :=
  { claim with confidence := claim.confidence.filter F32.isFinite }

theorem Claim.stored_eq_self {claim : Claim} :
    claim.stored = claim ↔ claim.confidence.all F32.isFinite := by
  obtain ⟨subject, predicate, object, validFrom, validTo, txTime, producer, confidence, supersedes,
    signature, tier, promotionState⟩ := claim
  cases confidence with
  | none => simp [Claim.stored]
  | some value => simp [Claim.stored, Option.filter]

theorem Claim.stored_stored (claim : Claim) : claim.stored.stored = claim.stored := by
  refine stored_eq_self.mpr ?_
  cases hconfidence : claim.confidence with
  | none => simp [Claim.stored, hconfidence]
  | some value => simp [Claim.stored, hconfidence]

/-- A mutation as its JSON text is read back. The text is tagged inside, so that a number is
parsed before its type is known, as a 64-bit float, and then rounded. -/
def RuntimeMutation.reread (rounded : F32 → F32) : RuntimeMutation → RuntimeMutation
  | .claim value => .claim { value with confidence := value.stored.confidence.map rounded }
  | .vector value => .vector { value with value := value.value.map rounded }
  | mutation => mutation

def RuntimeChange.reread (rounded : F32 → F32) (change : RuntimeChange) : RuntimeChange :=
  { change with mutation := change.mutation.reread rounded }

/-! ### Validation of a commit -/

def validateProperties (properties : RuntimeProperties) : Except Error Unit :=
  properties.keys.forM (checkText "runtime property")

/-- What has been seen of a commit: the identities of its values under the name
of their family, and whether it has a schema. -/
structure Seen where
  identities : List (String × RuntimeRef)
  schema : Bool

/-- Each identity occurs once in its family. -/
def Seen.identity (seen : Seen) (family name : String) (reference : RuntimeRef) :
    Except Error Seen := do
  ensure ((family, reference) ∉ seen.identities)
    (.invalidRuntime ("runtime commit contains duplicate " ++ name ++ " identity " ++
      reference.text))
  return { seen with identities := (family, reference) :: seen.identities }

namespace RuntimeMutation

/-- The check of one mutation after others of its commit. -/
def validate (floats : Floats) (seen : Seen) : RuntimeMutation → Except Error Seen
  | .claim value => do
      value.validate
      return seen
  | .schema registry => do
      registry.validate
      ensure (seen.schema = false)
        (.invalidRuntime "runtime commit may contain at most one schema mutation")
      return { seen with schema := true }
  | .record value => do
      validateWindow value.validFrom value.validTo
      validateProperties value.properties
      seen.identity "record" "record" value.reference
  | .relation value => do
      validateWindow value.validFrom value.validTo
      validateProperties value.properties
      seen.identity "relation" "relation" value.reference
  | .event value => do
      validateProperties value.properties
      return seen
  | .vector value => do
      value.validate floats
      validateProperties value.properties
      seen.identity "vector" "vector" value.reference
  | .seriesSample sample => do
      sample.validate floats
      validateProperties sample.properties
      seen.identity "series_sample" "series sample" sample.reference
  | .geo value => do
      value.validate
      validateProperties value.properties
      seen.identity "geo" "geo" value.reference
  | .object value => do
      value.validate
      validateProperties value.properties
      seen.identity "object" "object" value.reference
  | .retire retirement => do
      ensure (retirement.effectiveAt ≠ 0)
        (.invalidRuntime "runtime retirement effective_at must be greater than zero")
      ensure (retirement.model ≠ .reasoningClaim)
        (.invalidRuntime "reasoning claims retire through their bitemporal claim contract")
      seen.identity "retirement" "retirement" retirement.reference

def isClaim : RuntimeMutation → Bool
  | .claim _ => true
  | _ => false

def claim? : RuntimeMutation → Option Claim
  | .claim value => some value
  | _ => none

def schema? : RuntimeMutation → Option RuntimeSchemaRegistry
  | .schema registry => some registry
  | _ => none

def retirement? : RuntimeMutation → Option RuntimeRetirement
  | .retire retirement => some retirement
  | _ => none

def record? : RuntimeMutation → Option RuntimeRecord
  | .record value => some value
  | _ => none

def relation? : RuntimeMutation → Option RuntimeRelation
  | .relation value => some value
  | _ => none

end RuntimeMutation

def RuntimeCommit.validate (floats : Floats) (commit : RuntimeCommit) : Except Error Unit := do
  checkText "runtime actor" commit.actor
  ensure (commit.mutations ≠ [])
    (.invalidRuntime "runtime commit must contain at least one mutation")
  let _ ← commit.mutations.foldlM (RuntimeMutation.validate floats) { identities := [], schema := false }

/-! ### Validation against a schema -/

/-- The properties of a value against their declarations. -/
def validateDeclared (object : String) (kind : RuntimeType) (actual : RuntimeProperties)
    (declared : PropertySchemas) (allowAdditional : Bool) : Except Error Unit := do
  declared.toList.forM fun entry =>
    match actual.find? entry.1 with
    | some value =>
      ensure (entry.2.valueType.matches_ value)
        (.invalidRuntime (object ++ " type " ++ kind.val ++ " property " ++ quoted entry.1 ++
          " has the wrong value type"))
    | none =>
      ensure (entry.2.required = false)
        (.invalidRuntime (object ++ " type " ++ kind.val ++ " is missing required property " ++
          quoted entry.1))
  if allowAdditional then .ok ()
  else
    match actual.keys.find? fun name => !declared.contains name with
    | some name => invalid (object ++ " type " ++ kind.val ++ " contains undeclared property " ++
        quoted name)
    | none => .ok ()

/-- The tables without a map of their own. -/
def validateStructuralTable (object : String) (kind : RuntimeType) (properties : RuntimeProperties)
    (family : RuntimeMutationFamily) (tables : Tables) : Except Error Unit := do
  let table ← requireTable kind family tables
  if table.mode = .schemaless then .ok ()
  else validateDeclared object kind properties table.properties table.allowAdditionalProperties

def windowsOverlap (leftFrom : Nat) (leftTo : Option Nat) (rightFrom : Nat) (rightTo : Option Nat) :
    Bool :=
  decide (leftFrom < rightTo.getD (2 ^ 64 - 1)) && decide (rightFrom < leftTo.getD (2 ^ 64 - 1))

/-- The points at which the number of valid relations changes: ends come before
starts of the same time. -/
def overlapPoints (relations : List RuntimeRelation) : List (Nat × Int) :=
  (relations.flatMap fun relation =>
    (relation.validFrom, 1) :: (relation.validTo.map fun stop => (stop, -1)).toList).insertionSort
      fun a b => a.1 < b.1 ∨ a.1 = b.1 ∧ a.2 ≤ b.2

/-- The largest number of relations that are valid together. -/
def maxOverlap (relations : List RuntimeRelation) : Nat :=
  ((overlapPoints relations).foldl (fun (state : Int × Int) point =>
    (state.1 + point.2, max state.2 (state.1 + point.2))) (0, 0)).2.toNat

variable (registry : RuntimeSchemaRegistry)

variable (tables : Tables)

namespace RuntimeSchemaRegistry

def validateRecord (record : RuntimeRecord) : Except Error Unit := do
  let kind := record.reference.kind
  let table ← requireTable kind .record tables
  if table.mode = .schemaless then .ok ()
  else
    match registry.records.find? kind with
    | none => invalid ("record type " ++ kind.val ++ " is not registered")
    | some schema =>
      validateDeclared "record" kind record.properties schema.properties
        schema.allowAdditionalProperties

def validateRelation (relation : RuntimeRelation) : Except Error Unit := do
  let kind := relation.reference.kind
  let table ← requireTable kind .relation tables
  if table.mode = .schemaless then .ok ()
  else
    match registry.relations.find? kind with
    | none => invalid ("relation type " ++ kind.val ++ " is not registered")
    | some schema => do
        ensure (schema.from_.contains relation.from_.kind ∧ schema.to_.contains relation.to_.kind)
          (.invalidRuntime ("relation type " ++ kind.val ++ " rejects endpoint " ++
            relation.from_.kind.val ++ " -> " ++ relation.to_.kind.val))
        validateDeclared "relation" kind relation.properties schema.properties
          schema.allowAdditionalProperties

def validateEvent (event : RuntimeEvent) : Except Error Unit := do
  let table ← requireTable event.kind .event tables
  if table.mode = .schemaless then .ok ()
  else
    match registry.events.find? event.kind with
    | none => invalid ("event type " ++ event.kind.val ++ " is not registered")
    | some schema => do
        ensure (schema.subjectRequired → event.subject.isSome)
          (.invalidRuntime ("event type " ++ event.kind.val ++ " requires a subject"))
        match event.subject with
        | none => .ok ()
        | some subject =>
          ensure (schema.subjectTypes.toList = [] ∨ schema.subjectTypes.contains subject.kind)
            (.invalidRuntime ("event type " ++ event.kind.val ++ " rejects subject type " ++
              subject.kind.val))
        validateDeclared "event" event.kind event.properties schema.properties
          schema.allowAdditionalProperties

/-- The check of one mutation against the tables. -/
def validateMutation : RuntimeMutation → Except Error Unit
  | .claim _ | .schema _ => .ok ()
  | .retire retirement =>
    match tables.find? retirement.reference.kind with
    | none => invalid ("retirement table type " ++ retirement.reference.kind.val ++
        " is not registered in the catalogue")
    | some table =>
      ensure (table.model = retirement.model)
        (.invalidRuntime ("retirement target " ++ retirement.reference.text ++
          " is declared " ++ table.model.debug ++ ", not " ++ retirement.model.debug))
  | .record record => registry.validateRecord tables record
  | .relation relation => registry.validateRelation tables relation
  | .event event => registry.validateEvent tables event
  | .vector vector =>
    validateStructuralTable "vector" vector.reference.kind vector.properties .vector tables
  | .seriesSample sample =>
    validateStructuralTable "time-series sample" sample.reference.kind sample.properties .series
      tables
  | .geo geo => validateStructuralTable "geo value" geo.reference.kind geo.properties .geo tables
  | .object object =>
    validateStructuralTable "object" object.reference.kind object.properties .object tables

/-- The later candidates of a list with the same value and a common instant. -/
def hasClash : List (RuntimeRecord × RuntimeValue) → Bool
  | [] => false
  | (left, value) :: rest =>
    rest.any (fun other => value = other.2 &&
      windowsOverlap left.validFrom left.validTo other.1.validFrom other.1.validTo) ||
    hasClash rest

def validateRecordUniqueness (records : List RuntimeRecord) : Except Error Unit :=
  registry.records.toList.forM fun entry =>
    entry.2.uniqueProperties.keys.forM fun property =>
      ensure (hasClash ((records.filter fun record => record.reference.kind = entry.1).filterMap
          fun record => (record.properties.find? property).map (record, ·)) = false)
        (.invalidRuntime ("record type " ++ entry.1.val ++ " property " ++ quoted property ++
          " is not unique for overlapping validity windows"))

/-- No group of relations is valid together more than `limit` times. -/
def validateGroups {κ : Type} [LinearOrder κ] (key : RuntimeRelation → κ) (limit : Nat)
    (message : κ → String) (relations : List RuntimeRelation) : Except Error Unit :=
  (SortedMap.groupBy key relations).toList.forM fun group =>
    ensure (maxOverlap group.2 ≤ limit) (.invalidRuntime (message group.1))

/-- The relations of one kind against its rule. -/
def validateKindCardinality (kind : RuntimeType) (schema : RuntimeRelationSchema)
    (typed : List RuntimeRelation) : Except Error Unit := do
  (if schema.uniquePair then
    validateGroups (fun relation => toLex (relation.from_, relation.to_)) 1
      (fun pair => "relation type " ++ kind.val ++ " requires a unique pair for " ++
        (ofLex pair).1.text ++ " -> " ++ (ofLex pair).2.text) typed
  else .ok () : Except Error Unit)
  schema.maxOutgoing.toList.forM fun limit =>
    validateGroups RuntimeRelation.from_ limit
      (fun node => "relation type " ++ kind.val ++ " exceeds max_outgoing=" ++
        toString limit ++ " at " ++ node.text) typed
  schema.maxIncoming.toList.forM fun limit =>
    validateGroups RuntimeRelation.to_ limit
      (fun node => "relation type " ++ kind.val ++ " exceeds max_incoming=" ++
        toString limit ++ " at " ++ node.text) typed

def validateRelationCardinality (relations : List RuntimeRelation) : Except Error Unit :=
  registry.relations.toList.forM fun entry =>
    validateKindCardinality entry.1 entry.2
      (relations.filter fun relation => relation.reference.kind = entry.1)

/-- The rows after a commit: the old ones, replaced by identity. -/
def overlay {α : Type} (reference : α → RuntimeRef) (existing new : List α) : List α :=
  ((existing ++ new).foldl (fun rows a => rows.insert (reference a) a)
    (SortedMap.empty : SortedMap RuntimeRef α)).values

/-- The mutations of a commit against the registry, and the rows that result from
them against its constraints. Retirements do not remove rows here. -/
def validateObjects (mutations : List RuntimeMutation) (existingRecords : List RuntimeRecord)
    (existingRelations : List RuntimeRelation) : Except Error Unit := do
  registry.validate
  let tables ← registry.catalogueTables
  mutations.forM (registry.validateMutation tables)
  registry.validateRecordUniqueness (overlay RuntimeRecord.reference existingRecords
    (mutations.filterMap RuntimeMutation.record?))
  registry.validateRelationCardinality (overlay RuntimeRelation.reference existingRelations
    (mutations.filterMap RuntimeMutation.relation?))

end RuntimeSchemaRegistry

end Rrflow.Kernel

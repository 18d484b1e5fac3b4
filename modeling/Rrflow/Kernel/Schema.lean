import Rrflow.Kernel.Data

/-!
The schema registry of a scope.

One revisioned catalogue assigns every table type its logical model. The maps of
record, relation and event schemas add constraints to it; they never create a
table. `validate` says which registries may be installed at all.
-/

namespace Rrflow.Kernel

open Checks

abbrev SortedSet (κ : Type) [LinearOrder κ] := SortedMap κ Unit

inductive RuntimeValueType
  | null | bool | integer | unsigned | decimal | string | digest | list | map
  deriving DecidableEq, Repr

def RuntimeValueType.of : RuntimeValue → RuntimeValueType
  | .null => .null
  | .bool _ => .bool
  | .integer _ => .integer
  | .unsigned _ => .unsigned
  | .decimal _ => .decimal
  | .string _ => .string
  | .digest _ => .digest
  | .list _ => .list
  | .map _ => .map

def RuntimeValueType.matches_ (valueType : RuntimeValueType) (value : RuntimeValue) : Bool :=
  valueType = .of value

structure RuntimePropertySchema where
  valueType : RuntimeValueType
  required : Bool
  deriving DecidableEq

abbrev PropertySchemas := SortedMap String RuntimePropertySchema

structure RuntimeRecordSchema where
  properties : PropertySchemas
  allowAdditionalProperties : Bool
  uniqueProperties : SortedSet String
  deriving DecidableEq

structure RuntimeRelationSchema where
  from_ : SortedSet RuntimeType
  to_ : SortedSet RuntimeType
  properties : PropertySchemas
  allowAdditionalProperties : Bool
  uniquePair : Bool
  maxOutgoing : Option Nat
  maxIncoming : Option Nat
  deriving DecidableEq

structure RuntimeEventSchema where
  subjectRequired : Bool
  subjectTypes : SortedSet RuntimeType
  properties : PropertySchemas
  allowAdditionalProperties : Bool
  deriving DecidableEq

/-- What a table identity means. -/
inductive RuntimeLogicalModel
  | document | relational | graphNode | graphRelation | keyValue | vector | event | timeSeries
  | geo | object | reasoningClaim | reasoningRecord | reasoningEvent | lifecycleRecord
  | lifecycleEvent
  deriving DecidableEq, Repr

/-- Which kind of mutation writes a table. -/
inductive RuntimeMutationFamily
  | record | relation | event | vector | series | geo | object | claim
  deriving DecidableEq, Repr

namespace RuntimeLogicalModel

def family : RuntimeLogicalModel → RuntimeMutationFamily
  | .document | .relational | .graphNode | .keyValue | .reasoningRecord | .lifecycleRecord =>
    .record
  | .graphRelation => .relation
  | .event | .reasoningEvent | .lifecycleEvent => .event
  | .vector => .vector
  | .timeSeries => .series
  | .geo => .geo
  | .object => .object
  | .reasoningClaim => .claim

def isRecordLike : RuntimeLogicalModel → Bool
  | .document | .relational | .graphNode | .keyValue | .reasoningRecord | .lifecycleRecord => true
  | _ => false

def isEventLike : RuntimeLogicalModel → Bool
  | .event | .reasoningEvent | .lifecycleEvent => true
  | _ => false

def debug : RuntimeLogicalModel → String
  | .document => "Document"
  | .relational => "Relational"
  | .graphNode => "GraphNode"
  | .graphRelation => "GraphRelation"
  | .keyValue => "KeyValue"
  | .vector => "Vector"
  | .event => "Event"
  | .timeSeries => "TimeSeries"
  | .geo => "Geo"
  | .object => "Object"
  | .reasoningClaim => "ReasoningClaim"
  | .reasoningRecord => "ReasoningRecord"
  | .reasoningEvent => "ReasoningEvent"
  | .lifecycleRecord => "LifecycleRecord"
  | .lifecycleEvent => "LifecycleEvent"

end RuntimeLogicalModel

def RuntimeMutationFamily.debug : RuntimeMutationFamily → String
  | .record => "Record"
  | .relation => "Relation"
  | .event => "Event"
  | .vector => "Vector"
  | .series => "Series"
  | .geo => "Geo"
  | .object => "Object"
  | .claim => "Claim"

inductive RuntimeSchemaMode
  | strict | schemaless
  deriving DecidableEq, Repr

structure RuntimeTableSchema where
  model : RuntimeLogicalModel
  mode : RuntimeSchemaMode
  properties : PropertySchemas
  allowAdditionalProperties : Bool
  deriving DecidableEq

namespace RuntimeTableSchema

def strict (model : RuntimeLogicalModel) : RuntimeTableSchema :=
  { model, mode := .strict, properties := .empty, allowAdditionalProperties := false }

def schemaless (model : RuntimeLogicalModel) : RuntimeTableSchema :=
  { model, mode := .schemaless, properties := .empty, allowAdditionalProperties := false }

end RuntimeTableSchema

abbrev Tables := SortedMap RuntimeType RuntimeTableSchema

/-! ### Domains and categories -/

def defaultDomain : String := "default"

def engineDomain : String := "rrflow"

def engineOwnedStart : String := "rrflow-"

def maxDomains : Nat := 256

def maxDomainDepth : Nat := 8

def maxCategories : Nat := 64

def maxTagsPerCategory : Nat := 4096

def maxTagsPerKind : Nat := 64

def maxOrganisationTitleBytes : Nat := 128

def maxOrganisationDescriptionBytes : Nat := 1024

structure RuntimeDomainSchema where
  title : String
  description : String
  parent : Option RuntimeType
  deriving DecidableEq

inductive RuntimeCategoryTargets
  | kinds | records | kindsAndRecords
  deriving DecidableEq, Repr

def RuntimeCategoryTargets.includesKinds : RuntimeCategoryTargets → Bool
  | .kinds | .kindsAndRecords => true
  | .records => false

inductive RuntimeTagCardinality
  | single | multiple
  deriving DecidableEq, Repr

structure RuntimeTagSchema where
  title : String
  description : String
  deriving DecidableEq

structure RuntimeCategorySchema where
  title : String
  description : String
  targets : RuntimeCategoryTargets
  cardinality : RuntimeTagCardinality
  open_ : Bool
  tags : SortedMap RuntimeType RuntimeTagSchema
  deriving DecidableEq

/-- A tag, ordered by category and then by name. -/
abbrev RuntimeTagRef := RuntimeType ×ₗ RuntimeType

structure RuntimeEstateOrganisation where
  domains : SortedMap RuntimeType RuntimeDomainSchema
  categories : SortedMap RuntimeType RuntimeCategorySchema
  kindDomains : SortedMap RuntimeType RuntimeType
  collectionDomains : SortedMap RuntimeType RuntimeType
  kindTags : SortedMap RuntimeType (SortedSet RuntimeTagRef)
  deriving DecidableEq

def isBuiltinDomain (domain : String) : Bool := domain == defaultDomain || domain == engineDomain

def isEngineOwned (identity : String) : Bool := engineOwnedStart.toList.isPrefixOf identity.toList

/-- Unicode control characters. -/
def isControl (c : Char) : Bool := c.toNat < 32 || (127 ≤ c.toNat && c.toNat < 160)

def validateLabel (subject : String) (id : RuntimeType) (title description : String) :
    Except Error Unit := do
  ensure (isBlank title = false ∧ title.utf8ByteSize ≤ maxOrganisationTitleBytes)
    (.invalidRuntime (subject ++ " " ++ id.val ++ " needs a title of 1 to " ++
      toString maxOrganisationTitleBytes ++ " bytes"))
  ensure (description.utf8ByteSize ≤ maxOrganisationDescriptionBytes)
    (.invalidRuntime (subject ++ " " ++ id.val ++ " description exceeds " ++
      toString maxOrganisationDescriptionBytes ++ " bytes"))
  ensure ((title.toList ++ description.toList).all (!isControl ·))
    (.invalidRuntime (subject ++ " " ++ id.val ++
      " title and description cannot contain control characters"))

variable (organisation : RuntimeEstateOrganisation) (id : RuntimeType)

namespace RuntimeEstateOrganisation

def default_ : RuntimeEstateOrganisation :=
  { domains := .empty, categories := .empty, kindDomains := .empty
    collectionDomains := .empty, kindTags := .empty }

/-- Walks from a domain to the top. An ancestor that is not declared aborts the
program: the walk runs before that ancestor's own check. -/
def domainDepthFrom (organisation : RuntimeEstateOrganisation) (id : RuntimeType) :
    (levels : Nat) → (depth : Nat) → (current : RuntimeType) → Except Error Nat
  | levels, depth, current =>
    match organisation.domains.find? current with
    | none => .error (.panicked "no entry found for key")
    | some domain =>
      match domain.parent.filter fun parent => parent.val != defaultDomain with
      | none => .ok depth
      | some parent =>
        if parent = id then invalid ("domain " ++ id.val ++ " is its own ancestor")
        else
          match levels with
          | 0 => invalid ("domain " ++ id.val ++ " is deeper than " ++
              toString maxDomainDepth ++ " levels or part of a cycle")
          | levels + 1 => domainDepthFrom organisation id levels (depth + 1) parent

def domainDepth : Except Error Nat :=
  domainDepthFrom organisation id (maxDomainDepth - 1) 1 id

def validateMembership (subject : String) (identity domain : RuntimeType) : Except Error Unit := do
  ensure (isEngineOwned identity.val = false)
    (.invalidRuntime ("engine-owned " ++ subject ++ " " ++ identity.val ++
      " always belongs to rrflow"))
  ensure (domain.val ≠ engineDomain)
    (.invalidRuntime (subject ++ " " ++ identity.val ++
      " is not engine-owned and cannot be placed in rrflow"))
  ensure (domain.val ≠ defaultDomain)
    (.invalidRuntime (subject ++ " " ++ identity.val ++
      " already belongs to default; omit the entry instead"))
  ensure (organisation.domains.contains domain)
    (.invalidRuntime (subject ++ " " ++ identity.val ++ " names unknown domain " ++ domain.val))

def validateDomain (domain : RuntimeDomainSchema) : Except Error Unit := do
  ensure (isBuiltinDomain id.val = false ∧ isEngineOwned id.val = false)
    (.invalidRuntime ("domain " ++ id.val ++
      " is built in or reserved for the engine and cannot be declared"))
  validateLabel "domain" id domain.title domain.description
  match domain.parent with
  | none => .ok ()
  | some parent => do
      ensure (parent.val ≠ engineDomain)
        (.invalidRuntime ("domain " ++ id.val ++ " cannot be placed inside rrflow"))
      ensure (parent.val = defaultDomain ∨ organisation.domains.contains parent)
        (.invalidRuntime ("domain " ++ id.val ++ " names unknown parent " ++ parent.val))
  let _ ← organisation.domainDepth id

def validateCategory (category : RuntimeCategorySchema) : Except Error Unit := do
  ensure (id.val ≠ engineDomain ∧ isEngineOwned id.val = false)
    (.invalidRuntime ("category " ++ id.val ++ " is reserved for the engine"))
  validateLabel "category" id category.title category.description
  ensure (category.tags.toList.length ≤ maxTagsPerCategory)
    (.invalidRuntime ("category " ++ id.val ++ " may declare at most " ++
      toString maxTagsPerCategory ++ " tags"))
  category.tags.toList.forM fun entry =>
    validateLabel "tag" entry.1 entry.2.title entry.2.description

/-- One tag of a kind; `single` holds the single-tag categories seen before. -/
def validateKindTag (kind : RuntimeType) (single : SortedSet RuntimeType)
    (reference : RuntimeTagRef) : Except Error (SortedSet RuntimeType) := do
  let (name, tag) := ofLex reference
  match organisation.categories.find? name with
  | none => invalid ("table type " ++ kind.val ++ " uses unknown category " ++ name.val)
  | some category => do
      ensure category.targets.includesKinds
        (.invalidRuntime ("category " ++ name.val ++ " does not tag table types"))
      ensure (category.tags.contains tag)
        (.invalidRuntime ("table type " ++ kind.val ++ " uses unknown tag " ++ name.val ++ ":" ++
          tag.val))
      if category.cardinality = .single then do
        ensure (single.contains name = false)
          (.invalidRuntime ("table type " ++ kind.val ++
            " carries more than one tag of single-tag category " ++ name.val))
        return single.insert name ()
      else return single

def validateKindTags (tables : Tables) (kind : RuntimeType) (tags : SortedSet RuntimeTagRef) :
    Except Error Unit := do
  ensure (tables.contains kind)
    (.invalidRuntime ("kind tags name unregistered table type " ++ kind.val))
  ensure (tags.toList ≠ [])
    (.invalidRuntime ("table type " ++ kind.val ++
      " lists an empty tag set; omit the entry instead"))
  ensure (tags.toList.length ≤ maxTagsPerKind)
    (.invalidRuntime ("table type " ++ kind.val ++ " may carry at most " ++
      toString maxTagsPerKind ++ " tags"))
  let _ ← tags.keys.foldlM (organisation.validateKindTag kind) .empty

def validate (tables : Tables) : Except Error Unit := do
  ensure (organisation.domains.toList.length + 2 ≤ maxDomains)
    (.invalidRuntime ("an estate may declare at most " ++ toString (maxDomains - 2) ++
      " domains besides default and rrflow"))
  organisation.domains.toList.forM fun entry => organisation.validateDomain entry.1 entry.2
  organisation.kindDomains.toList.forM fun entry => do
    ensure (tables.contains entry.1)
      (.invalidRuntime ("domain membership names unregistered table type " ++ entry.1.val))
    organisation.validateMembership "table type" entry.1 entry.2
  organisation.collectionDomains.toList.forM fun entry =>
    organisation.validateMembership "vector collection" entry.1 entry.2
  ensure (organisation.categories.toList.length ≤ maxCategories)
    (.invalidRuntime ("an estate may declare at most " ++ toString maxCategories ++
      " categories"))
  organisation.categories.toList.forM fun entry => validateCategory entry.1 entry.2
  organisation.kindTags.toList.forM fun entry =>
    organisation.validateKindTags tables entry.1 entry.2

end RuntimeEstateOrganisation

/-! ### The registry -/

structure RuntimeSchemaRegistry where
  revision : Nat
  migration : String
  organisation : RuntimeEstateOrganisation
  tables : Tables
  records : SortedMap RuntimeType RuntimeRecordSchema
  relations : SortedMap RuntimeType RuntimeRelationSchema
  events : SortedMap RuntimeType RuntimeEventSchema
  deriving DecidableEq

variable (kind : RuntimeType)

def validatePropertySchema (properties : PropertySchemas) : Except Error Unit :=
  properties.keys.forM fun name =>
    ensure (name ≠ "" ∧ Char.ofNat 0 ∉ name.toList)
      (.invalidRuntime ("type " ++ kind.val ++ " contains invalid property name " ++ quoted name))

def requireTable (family : RuntimeMutationFamily) (tables : Tables) :
    Except Error RuntimeTableSchema :=
  match tables.find? kind with
  | none => invalid (family.debug ++ " table type " ++ kind.val ++
      " is not registered in the catalogue")
  | some table => do
      ensure (table.model.family = family)
        (.invalidRuntime ("table type " ++ kind.val ++ " is catalogued as " ++ table.model.debug ++
          ", not " ++ family.debug))
      return table

def validateSpecializedTable (tables : Tables) (kind : RuntimeType)
    (family : RuntimeMutationFamily) : Except Error Unit := do
  let table ← requireTable kind family tables
  ensure (table.mode = .strict)
    (.invalidRuntime ("table type " ++ kind.val ++ " is schemaless but also has a strict " ++
      family.debug ++ " schema"))

/-- Record, relation and event tables keep their constraints in maps of their
own. -/
def RuntimeMutationFamily.isSpecialized : RuntimeMutationFamily → Bool
  | .record | .relation | .event => true
  | _ => false

def validateTable (table : RuntimeTableSchema) : Except Error Unit := do
  validatePropertySchema kind table.properties
  let contract := table.properties.toList ≠ [] ∨ table.allowAdditionalProperties
  ensure (¬(table.mode = .schemaless ∧ contract))
    (.invalidRuntime ("schemaless table type " ++ kind.val ++
      " cannot also declare a strict property contract"))
  ensure (¬(table.model.family.isSpecialized ∧ contract))
    (.invalidRuntime ("table type " ++ kind.val ++
      " must keep record/relation/event properties in its specialized schema"))

variable (registry : RuntimeSchemaRegistry)

namespace RuntimeSchemaRegistry

def isSpecialized (kind : RuntimeType) : RuntimeMutationFamily → Bool
  | .record => registry.records.contains kind
  | .relation => registry.relations.contains kind
  | .event => registry.events.contains kind
  | _ => false

/-- Checks the table map against the specialized maps and returns it. -/
def catalogueTables : Except Error Tables := do
  registry.records.keys.forM (validateSpecializedTable registry.tables · .record)
  registry.relations.keys.forM (validateSpecializedTable registry.tables · .relation)
  registry.events.keys.forM (validateSpecializedTable registry.tables · .event)
  registry.tables.toList.forM fun entry => do
    let (kind, table) := entry
    validateTable kind table
    let family := table.model.family
    let specialized := registry.isSpecialized kind family
    ensure (¬(table.mode = .strict ∧ family.isSpecialized ∧ specialized = false))
      (.invalidRuntime ("strict table type " ++ kind.val ++ " lacks its specialized " ++
        family.debug ++ " schema"))
    ensure (¬(table.mode = .schemaless ∧ family.isSpecialized ∧ specialized = true))
      (.invalidRuntime ("schemaless table type " ++ kind.val ++
        " also declares a strict specialized schema"))
  return registry.tables

def validateRecordSchema (schema : RuntimeRecordSchema) : Except Error Unit := do
  validatePropertySchema kind schema.properties
  schema.uniqueProperties.keys.forM fun property =>
    ensure (schema.properties.contains property)
      (.invalidRuntime ("record type " ++ kind.val ++ " declares unknown unique property " ++
        quoted property))

def validateRelationSchema (schema : RuntimeRelationSchema) : Except Error Unit := do
  ensure (schema.from_.toList ≠ [] ∧ schema.to_.toList ≠ [])
    (.invalidRuntime ("relation type " ++ kind.val ++
      " must declare at least one from and to endpoint type"))
  ensure (schema.maxOutgoing ≠ some 0 ∧ schema.maxIncoming ≠ some 0)
    (.invalidRuntime ("relation type " ++ kind.val ++
      " cardinality limits must be greater than zero"))
  validatePropertySchema kind schema.properties

def validate : Except Error Unit := do
  ensure (registry.revision ≠ 0)
    (.invalidRuntime "runtime schema revision must be greater than zero")
  ensure (isBlank registry.migration = false)
    (.invalidRuntime "runtime schema migration description must not be empty")
  ensure (registry.tables.toList ≠ [])
    (.invalidRuntime "runtime schema must declare an explicit canonical table map")
  let _ ← registry.catalogueTables
  registry.organisation.validate registry.tables
  registry.records.toList.forM fun entry => validateRecordSchema entry.1 entry.2
  registry.relations.toList.forM fun entry => validateRelationSchema entry.1 entry.2
  registry.events.toList.forM fun entry => validatePropertySchema entry.1 entry.2.properties

/-- A catalogue that passes its checks is the table map itself. -/
theorem catalogueTables_eq_ok {registry : RuntimeSchemaRegistry} {tables : Tables}
    (h : registry.catalogueTables = .ok tables) : tables = registry.tables := by
  simp only [catalogueTables, bind_eq_ok] at h
  obtain ⟨_, -, _, -, _, -, _, -, h⟩ := h
  exact (Except.ok.inj h).symm

theorem catalogueTables_of_validate {registry : RuntimeSchemaRegistry}
    (h : registry.validate = .ok ()) : registry.catalogueTables = .ok registry.tables := by
  simp only [validate, bind_eq_ok] at h
  obtain ⟨_, -, _, -, _, -, tables, htables, -⟩ := h
  rw [htables, catalogueTables_eq_ok htables]

end RuntimeSchemaRegistry

end Rrflow.Kernel

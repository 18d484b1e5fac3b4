import Rrflow.Store.KeyCodecSpec
import Rrflow.Store.State

/-!
The key shapes of the store.

A space is a family and the number of a subspace in it, which stands in front of the
fields of every key. A caller names a space and the fields; the codec orders the keys by
their fields, so the keys of one space, or those that begin with given fields, lie next to
one another.
-/

namespace Rrflow.Store

open Kernel Checks List

inductive Space
  | claims
  | sequenceIndex
  | access
  | system
  | invocations
  | functionArtifacts
  | functionDefinitions
  | transactionFunctionBindings
  | functionCatalogueMemberships
  | functionCatalogueHeads
  | projections
  | runtimeChanges
  | runtimeClaimVersions
  | runtimeRecords
  | runtimeRecordVersions
  | runtimeRelations
  | runtimeRelationVersions
  | runtimeEventVersions
  | runtimeOutgoingEdges
  | runtimeOutgoingEdgeVersions
  | runtimeIncomingEdges
  | runtimeIncomingEdgeVersions
  | runtimeVectors
  | runtimeVectorVersions
  | runtimeSeries
  | runtimeSeriesVersions
  | runtimeGeo
  | runtimeGeoVersions
  | runtimeObjects
  | runtimeObjectVersions
  | runtimeProjectionDeltas
  | runtimeIndexSourceDeltas
  | runtimeVectorSourceDeltas
  | runtimeIndexBindings
  | runtimeIndexBindingVersions
  | runtimeIndexBindingSets
  | runtimeScalarEntries
  | runtimeUniqueEntries
  | runtimeOutbox
  | runtimeAudit
  | runtimeCommits
  | runtimeSchemas
  | runtimeSchemaVersions
  | runtimeSnapshots
  deriving DecidableEq

namespace Space

def family : Space → KeyFamily
  | .claims | .sequenceIndex | .runtimeClaimVersions | .runtimeRecordVersions
  | .runtimeRelationVersions | .runtimeSeriesVersions | .runtimeGeoVersions
  | .runtimeObjectVersions => .temporal
  | .access | .runtimeAudit => .audit
  | .system => .system
  | .invocations | .functionArtifacts | .functionDefinitions
  | .transactionFunctionBindings | .functionCatalogueMemberships
  | .functionCatalogueHeads | .runtimeSchemas | .runtimeSchemaVersions
  | .runtimeSnapshots | .runtimeIndexBindings | .runtimeIndexBindingVersions
  | .runtimeIndexBindingSets => .catalogue
  | .projections | .runtimeProjectionDeltas | .runtimeIndexSourceDeltas
  | .runtimeVectorSourceDeltas => .projectionDelta
  | .runtimeChanges | .runtimeEventVersions => .engineEvent
  | .runtimeRecords | .runtimeRelations | .runtimeSeries | .runtimeGeo | .runtimeObjects => .current
  | .runtimeVectors | .runtimeVectorVersions => .vector
  | .runtimeScalarEntries => .scalar
  | .runtimeUniqueEntries => .unique
  | .runtimeOutgoingEdges | .runtimeOutgoingEdgeVersions => .outgoingEdge
  | .runtimeIncomingEdges | .runtimeIncomingEdgeVersions => .incomingEdge
  | .runtimeOutbox => .outbox
  | .runtimeCommits => .runtimeCommit

def subspace : Space → Byte
  | .claims => 0x01
  | .sequenceIndex => 0x02
  | .runtimeRecordVersions => 0x03
  | .runtimeRelationVersions => 0x04
  | .runtimeClaimVersions => 0x05
  | .runtimeSeriesVersions => 0x06
  | .runtimeGeoVersions => 0x07
  | .runtimeObjectVersions => 0x08
  | .access => 0x01
  | .system => 0x01
  | .invocations => 0x06
  | .functionArtifacts => 0x01
  | .functionDefinitions => 0x02
  | .transactionFunctionBindings => 0x03
  | .functionCatalogueMemberships => 0x04
  | .functionCatalogueHeads => 0x05
  | .runtimeSchemas => 0x20
  | .runtimeSnapshots => 0x21
  | .runtimeSchemaVersions => 0x22
  | .runtimeIndexBindings => 0x30
  | .runtimeIndexBindingVersions => 0x31
  | .runtimeIndexBindingSets => 0x32
  | .projections => 0x01
  | .runtimeProjectionDeltas => 0x02
  | .runtimeIndexSourceDeltas => 0x03
  | .runtimeVectorSourceDeltas => 0x04
  | .runtimeChanges => 0x01
  | .runtimeEventVersions => 0x02
  | .runtimeRecords => 0x01
  | .runtimeRelations => 0x02
  | .runtimeSeries => 0x03
  | .runtimeGeo => 0x04
  | .runtimeObjects => 0x05
  | .runtimeVectors => 0x01
  | .runtimeVectorVersions => 0x02
  | .runtimeScalarEntries => 0x01
  | .runtimeUniqueEntries => 0x01
  | .runtimeOutgoingEdges => 0x01
  | .runtimeIncomingEdges => 0x01
  | .runtimeOutgoingEdgeVersions => 0x02
  | .runtimeIncomingEdgeVersions => 0x02
  | .runtimeOutbox => 0x01
  | .runtimeAudit => 0x02
  | .runtimeCommits => 0x01

def name : Space → String
  | .claims => "Claims"
  | .sequenceIndex => "SequenceIndex"
  | .access => "Access"
  | .system => "System"
  | .invocations => "Invocations"
  | .functionArtifacts => "FunctionArtifacts"
  | .functionDefinitions => "FunctionDefinitions"
  | .transactionFunctionBindings => "TransactionFunctionBindings"
  | .functionCatalogueMemberships => "FunctionCatalogueMemberships"
  | .functionCatalogueHeads => "FunctionCatalogueHeads"
  | .projections => "Projections"
  | .runtimeChanges => "RuntimeChanges"
  | .runtimeClaimVersions => "RuntimeClaimVersions"
  | .runtimeRecords => "RuntimeRecords"
  | .runtimeRecordVersions => "RuntimeRecordVersions"
  | .runtimeRelations => "RuntimeRelations"
  | .runtimeRelationVersions => "RuntimeRelationVersions"
  | .runtimeEventVersions => "RuntimeEventVersions"
  | .runtimeOutgoingEdges => "RuntimeOutgoingEdges"
  | .runtimeOutgoingEdgeVersions => "RuntimeOutgoingEdgeVersions"
  | .runtimeIncomingEdges => "RuntimeIncomingEdges"
  | .runtimeIncomingEdgeVersions => "RuntimeIncomingEdgeVersions"
  | .runtimeVectors => "RuntimeVectors"
  | .runtimeVectorVersions => "RuntimeVectorVersions"
  | .runtimeSeries => "RuntimeSeries"
  | .runtimeSeriesVersions => "RuntimeSeriesVersions"
  | .runtimeGeo => "RuntimeGeo"
  | .runtimeGeoVersions => "RuntimeGeoVersions"
  | .runtimeObjects => "RuntimeObjects"
  | .runtimeObjectVersions => "RuntimeObjectVersions"
  | .runtimeProjectionDeltas => "RuntimeProjectionDeltas"
  | .runtimeIndexSourceDeltas => "RuntimeIndexSourceDeltas"
  | .runtimeVectorSourceDeltas => "RuntimeVectorSourceDeltas"
  | .runtimeIndexBindings => "RuntimeIndexBindings"
  | .runtimeIndexBindingVersions => "RuntimeIndexBindingVersions"
  | .runtimeIndexBindingSets => "RuntimeIndexBindingSets"
  | .runtimeScalarEntries => "RuntimeScalarEntries"
  | .runtimeUniqueEntries => "RuntimeUniqueEntries"
  | .runtimeOutbox => "RuntimeOutbox"
  | .runtimeAudit => "RuntimeAudit"
  | .runtimeCommits => "RuntimeCommits"
  | .runtimeSchemas => "RuntimeSchemas"
  | .runtimeSchemaVersions => "RuntimeSchemaVersions"
  | .runtimeSnapshots => "RuntimeSnapshots"

/-- No two spaces share a range of keys: family and subspace determine the space. -/
theorem eq_of_family_subspace {space space' : Space} (hfamily : space.family = space'.family)
    (hsubspace : space.subspace = space'.subspace) : space = space' := by
  have hfind : ∀ space : Space, ((List.range 44).map Space.ofNat).find? (fun other =>
      other.family = space.family ∧ other.subspace = space.subspace) = some space := by
    intro space
    cases space <;> rfl
  have hsame := hfind space
  rw [hfamily, hsubspace, hfind space'] at hsame
  exact (Option.some.inj hsame).symm

end Space

variable (space : Space)

variable (subject : Subject) (predicate : Predicate) (parts : List KeyPart)

namespace Keyspaces

def encode : List Byte :=
  KeyCodec.encode ⟨none, none⟩ space.family (.u8 space.subspace :: parts)

def decodeSpace (stored : List Byte) : Except Error (List KeyPart) := do
  let decoded ← (KeyCodec.decode stored).mapError fun error => Error.codec error.reason
  ensure (decoded.address.tenant = none ∧ decoded.address.scope = none ∧
      decoded.family = space.family ∧ decoded.parts.head? = some (.u8 space.subspace))
    (.codec ("key escaped canonical rrflowKV space " ++ space.name))
  return decoded.parts.drop 1

def validateSpace (stored : List Byte) : Except Error Unit := do
  let _ ← decodeSpace space stored
  return ()

/-- The key, if it lies in the space. -/
def checkedKey (key : List Byte) : Except Error (List Byte) := do
  validateSpace space key
  return key

/-- A time or sequence number as the field of a key. -/
def u64 (n : Nat) : UInt64 := UInt64.ofNat n

def claimKey (validFrom txTime : Nat) : List Byte :=
  encode .claims [.text subject.val, .text predicate.val, .descU64 (u64 validFrom),
    .descU64 (u64 txTime)]

def claimSubjectStem : List Byte := encode .claims [.text subject.val]

def claimVersionStem : List Byte :=
  encode .claims [.text subject.val, .text predicate.val]

def claimSeekKey (asOf : Nat) : List Byte :=
  encode .claims [.text subject.val, .text predicate.val, .descU64 (u64 asOf)]

def sequenceKey (sequence : Nat) : List Byte := encode .sequenceIndex [.u64 (u64 sequence)]

/-- The number of the entry `ClaimSequence` of the system space. -/
def claimSequenceEntry : Byte := 0x01

def sequenceWatermarkKey : List Byte := encode .system [.u8 claimSequenceEntry]

theorem decodeSpace_encode : decodeSpace space (encode space parts) = .ok parts := by
  have hdecode : KeyCodec.decode (encode space parts) =
      .ok ⟨⟨none, none⟩, space.family, .u8 space.subspace :: parts⟩ :=
    KeyCodec.decode_eq_ok.mpr rfl
  rw [decodeSpace, hdecode]
  simp [Except.mapError, ensure, bind, Except.bind, pure, Except.pure]

theorem checkedKey_encode : checkedKey space (encode space parts) = .ok (encode space parts) := by
  rw [checkedKey, validateSpace, decodeSpace_encode]
  rfl

/-- A key begins with the bytes of some fields of a space if it is a key of that space and
begins with the fields. -/
theorem encode_isPrefix_encode {space space' : Space} {leading parts : List KeyPart} :
    encode space leading <+: encode space' parts ↔ space' = space ∧ leading <+: parts := by
  rw [encode, encode, KeyCodec.encode_isPrefix_encode, cons_prefix_cons, KeyPart.u8.injEq]
  constructor
  · rintro ⟨-, hfamily, hsubspace, hparts⟩
    exact ⟨Space.eq_of_family_subspace hfamily hsubspace.symm, hparts⟩
  · rintro ⟨rfl, hparts⟩
    exact ⟨rfl, rfl, rfl, hparts⟩

theorem encode_inj {space space' : Space} {parts parts' : List KeyPart} :
    encode space parts = encode space' parts' ↔ space = space' ∧ parts = parts' := by
  constructor
  · intro h
    obtain ⟨-, hleft⟩ := encode_isPrefix_encode.mp ⟨[], (append_nil _).trans h⟩
    obtain ⟨hspace, hright⟩ := encode_isPrefix_encode.mp ⟨[], (append_nil _).trans h.symm⟩
    exact ⟨hspace, hleft.eq_of_length_le hright.length_le⟩
  · rintro ⟨rfl, rfl⟩
    rfl

/-- The keys that begin with given fields are those of an interval. -/
theorem exists_interval (leading : List KeyPart) :
    ∃ stop, KeyCodec.prefixEnd (encode space leading) = some stop ∧
      ∀ bytes, encode space leading ≤ bytes ∧ bytes < stop ↔ encode space leading <+: bytes := by
  obtain ⟨stop, hstop⟩ := KeyCodec.exists_prefixEnd ⟨none, none⟩ space.family
    (.u8 space.subspace :: leading)
  exact ⟨stop, hstop, fun _ => KeyCodec.inInterval_iff_isPrefix hstop⟩

theorem encode_le_encode {leading parts : List KeyPart} (h : leading <+: parts) :
    encode space leading ≤ encode space parts := by
  obtain ⟨stop, -, hinterval⟩ := exists_interval space leading
  exact ((hinterval _).mpr (encode_isPrefix_encode.mpr ⟨rfl, h⟩)).1

/-- Keys of a space are compared by their leading fields first. -/
theorem encode_lt_encode {p q : List KeyPart} (h : p.map KeyPart.type = q.map KeyPart.type)
    (r r' : List KeyPart) :
    encode space (p ++ r) < encode space (q ++ r') ↔ List.Lex KeyPart.Lt p q ∨
      (p = q ∧ r.flatMap KeyCodec.encodePart < r'.flatMap KeyCodec.encodePart) := by
  have hparts := OrderCode.lexical_flatMap
    (KeyCodec.forall₂_lexical (p := .u8 space.subspace :: p) (q := .u8 space.subspace :: q)
      (congrArg (KeyCodec.KeyPartType.u8 :: ·) h))
    (r.flatMap KeyCodec.encodePart) (r'.flatMap KeyCodec.encodePart)
  rw [encode, encode, KeyCodec.encode_eq, KeyCodec.encode_eq, OrderCode.append_lt_append_iff rfl,
    ← cons_append, ← cons_append, flatMap_append, flatMap_append, hparts,
    cons_lex_cons_iff]
  simp [KeyPart.Lt]

end Keyspaces

end Rrflow.Store

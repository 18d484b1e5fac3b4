import Rrflow.Lib.Wire
import Rrflow.Lsm.SegmentWrite

/-!
Manifests: the immutable description of one physical state.

A manifest names the segments of the state, the greatest sequence they hold
(`durableSequence`) and the log that continues after it. Its identity is the
SHA-256 of its fields. As for segments, the only assumption about it is that it
has no collisions.
-/

namespace Rrflow.Lsm

/-- What a manifest records of a segment. Format version, schema digests and the
checksum (equal to `id`) are the same for every segment of this format. -/
structure SegmentDescriptor where
  id : Digest
  level : Nat
  firstKey : Bytes
  lastKey : Bytes
  minimumSequence : Nat
  maximumSequence : Nat
  entries : Nat
  bytes : Nat
  deriving DecidableEq, Repr

structure Segment where
  content : SegmentContent
  level : Nat
  deriving DecidableEq

def SegmentContent.descriptor (codec : SegmentCodec) (content : SegmentContent) (level : Nat) :
    SegmentDescriptor :=
  { id := codec.sha256 content.rowGroups
    level
    firstKey := content.firstKey
    lastKey := content.lastKey
    minimumSequence := content.minimumSequence
    maximumSequence := content.maximumSequence
    entries := content.entries
    bytes := codec.bytes content.rowGroups }

def Segment.descriptor (codec : SegmentCodec) (segment : Segment) : SegmentDescriptor :=
  segment.content.descriptor codec segment.level

/-- A manifest without its digest, which is a function of the fields. -/
structure Manifest where
  applicationFormat : Option Nat
  generation : Nat
  parent : Option Digest
  createdAt : Nat
  durableSequence : Nat
  walStartSequence : Nat
  segments : List SegmentDescriptor
  deriving DecidableEq, Repr

structure CurrentPointer where
  manifest : Digest
  generation : Nat
  deriving DecidableEq, Repr

structure Checkpoint where
  manifest : Digest
  generation : Nat
  createdAt : Nat
  deriving DecidableEq, Repr

/-- The physical encoding of segments, manifests and the two control files. -/
structure Codec extends SegmentCodec where
  manifestSha256 : Manifest → Digest
  manifestSha256_injective : Function.Injective manifestSha256
  /-- Length of the encoded manifest file. -/
  manifestBytes : Manifest → Nat
  /-- Length of the encoded pointer file. -/
  pointerBytes : CurrentPointer → Nat
  /-- Length of an encoded checkpoint file. -/
  checkpointBytes : Checkpoint → Nat
  /-- Length of an encoded snapshot bundle. -/
  bundleBytes : Manifest → List (List (List Entry)) → Nat

/-! ### An ideal codec

Fingerprints that are the encoded content itself, and lengths that count
numbers. It shows that the assumptions of `Codec` can be met, and makes runs of
the model computable. -/

namespace Ideal

def bytes : Wire Bytes := (Wire.nat.via Fin.val Fin.val_injective).list

def entry : Wire Entry :=
  (bytes.pair (Wire.nat.pair bytes.option)).via
    (fun entry => (entry.1, entry.2.sequence, entry.2.value))
    (by rintro ⟨k, n, v⟩ ⟨k', n', v'⟩ h; simp_all)

def rowGroups : Wire (List (List Entry)) := entry.list.list

def descriptor : Wire SegmentDescriptor :=
  (Wire.nat.list.pair (Wire.nat.pair (bytes.pair (bytes.pair (Wire.nat.pair
    (Wire.nat.pair (Wire.nat.pair Wire.nat))))))).via
    (fun d => (d.id, d.level, d.firstKey, d.lastKey, d.minimumSequence, d.maximumSequence,
      d.entries, d.bytes))
    (by rintro ⟨⟩ ⟨⟩ h; simp_all)

def manifest : Wire Manifest :=
  (Wire.nat.option.pair (Wire.nat.pair (Wire.nat.list.option.pair (Wire.nat.pair
    (Wire.nat.pair (Wire.nat.pair descriptor.list)))))).via
    (fun m => (m.applicationFormat, m.generation, m.parent, m.createdAt, m.durableSequence,
      m.walStartSequence, m.segments))
    (by rintro ⟨⟩ ⟨⟩ h; simp_all)

def codec : Codec where
  admits _ := .ok ()
  bytes groups := (rowGroups.put groups).length
  sha256 := rowGroups.put
  sha256_injective := rowGroups.injective
  manifestSha256 := manifest.put
  manifestSha256_injective := manifest.injective
  manifestBytes m := (manifest.put m).length
  pointerBytes pointer := pointer.manifest.length + 1
  checkpointBytes checkpoint := checkpoint.manifest.length + 2
  bundleBytes m segments :=
    (manifest.put m).length + (segments.map (fun groups => (rowGroups.put groups).length)).sum

end Ideal

def Manifest.digest (codec : Codec) (manifest : Manifest) : Digest :=
  codec.manifestSha256 manifest

def SegmentDescriptor.validate (segment : SegmentDescriptor) : Except Error Unit :=
  if segment.lastKey < segment.firstKey then
    .error (.invalidManifest "segment has an inverted key range")
  else if segment.minimumSequence = 0 ∨ segment.maximumSequence < segment.minimumSequence then
    .error (.invalidManifest "segment has an invalid sequence range")
  else if segment.entries = 0 ∨ segment.bytes = 0 then
    .error (.invalidManifest "segment must contain entries and bytes")
  else .ok ()

/-- Accumulated state of the check of the segment list: the identities seen and
the last key of each level. -/
structure SegmentScan where
  identities : List Digest := []
  levelLastKeys : SortedMap Nat Bytes := ∅

def SegmentScan.step (durableSequence : Nat) (scan : SegmentScan) (segment : SegmentDescriptor) :
    Except Error SegmentScan := do
  segment.validate
  if segment.id ∈ scan.identities then
    .error (.invalidManifest "segment appears more than once")
  if segment.maximumSequence > durableSequence then
    .error (.invalidManifest "segment extends beyond the durable sequence")
  let identities := segment.id :: scan.identities
  if segment.level ≠ 0 then
    if (scan.levelLastKeys.find? segment.level).any (fun lastKey => segment.firstKey ≤ lastKey) then
      .error (.invalidManifest "level contains overlapping or unordered segment ranges")
    return { identities,
             levelLastKeys := scan.levelLastKeys.insert segment.level segment.lastKey }
  return { identities, levelLastKeys := scan.levelLastKeys }

def Manifest.validateComponents (manifest : Manifest) : Except Error Unit := do
  if manifest.generation = 0 then
    .error (.invalidManifest "manifest generation must be greater than zero")
  if manifest.walStartSequence > saturatingAdd manifest.durableSequence 1 then
    .error (.invalidManifest "WAL start cannot skip beyond the durable sequence")
  if manifest.generation = 1 ∧ manifest.parent.isSome then
    .error (.invalidManifest "the first manifest cannot name a parent")
  if manifest.generation > 1 ∧ manifest.parent.isNone then
    .error (.invalidManifest "later manifests require a parent digest")
  let _ ← manifest.segments.foldlM (SegmentScan.step manifest.durableSequence) {}

def Manifest.validate (manifest : Manifest) : Except Error Unit := do
  if manifest.applicationFormat = some 0 then
    .error (.invalidManifest "application format identity must be non-zero")
  manifest.validateComponents

/-- Order of the segments in a manifest: level, first key, identity. -/
def descriptorLe (left right : SegmentDescriptor) : Prop :=
  left.level < right.level ∨ left.level = right.level ∧
    (left.firstKey < right.firstKey ∨ left.firstKey = right.firstKey ∧ left.id ≤ right.id)

instance : DecidableRel descriptorLe := fun left right =>
  inferInstanceAs (Decidable (left.level < right.level ∨ left.level = right.level ∧
    (left.firstKey < right.firstKey ∨ left.firstKey = right.firstKey ∧ left.id ≤ right.id)))

theorem descriptorLe_iff {left right : SegmentDescriptor} : descriptorLe left right ↔
    toLex (left.level, toLex (left.firstKey, left.id)) ≤
      toLex (right.level, toLex (right.firstKey, right.id)) := by
  rw [Prod.Lex.toLex_le_toLex, Prod.Lex.toLex_le_toLex]
  rfl

instance : Std.Total descriptorLe where
  total left right := by
    rw [descriptorLe_iff, descriptorLe_iff]
    exact le_total ..

instance : IsTrans SegmentDescriptor descriptorLe where
  trans a b c := by
    rw [descriptorLe_iff, descriptorLe_iff, descriptorLe_iff]
    exact le_trans

/-- Segments that a manifest has sorted stay in their order. -/
theorem insertionSort_insertionSort (segments : List SegmentDescriptor) :
    (segments.insertionSort descriptorLe).insertionSort descriptorLe =
      segments.insertionSort descriptorLe :=
  (List.pairwise_insertionSort descriptorLe segments).insertionSort_eq

def newManifest (generation : Nat) (parent : Option Digest) (createdAt durableSequence
    walStartSequence : Nat) (segments : List SegmentDescriptor) (applicationFormat : Option Nat) :
    Except Error Manifest := do
  if applicationFormat = some 0 then
    .error (.invalidManifest "application format identity must be non-zero")
  let manifest : Manifest :=
    { applicationFormat, generation, parent, createdAt, durableSequence, walStartSequence
      segments := segments.insertionSort descriptorLe }
  manifest.validateComponents
  return manifest

theorem newManifest_eq_ok {generation createdAt durable walStart : Nat} {parent : Option Digest}
    {segments : List SegmentDescriptor} {format : Option Nat} {manifest : Manifest}
    (h : newManifest generation parent createdAt durable walStart segments format = .ok manifest) :
    manifest.validate = .ok () ∧
    manifest = { applicationFormat := format, generation, parent, createdAt
                 durableSequence := durable, walStartSequence := walStart
                 segments := segments.insertionSort descriptorLe } := by
  simp only [newManifest, Checks.unless_eq_ok, Checks.bind_eq_ok] at h
  obtain ⟨hformat, _, hval, heq⟩ := h
  cases heq
  rw [Manifest.validate, Checks.unless_eq_ok]
  exact ⟨⟨hformat, hval⟩, rfl⟩

end Rrflow.Lsm

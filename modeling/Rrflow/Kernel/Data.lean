import Rrflow.Lib.SortedMap
import Rrflow.Kernel.Value
import Rrflow.Kernel.Ident

/-!
Vectors, series samples, geometries and object references.

Floating-point values are their bit patterns. Comparison and finiteness are
computed from the bits; the two places that need arithmetic or parsing of floats
are the fields of `Floats`.
-/

namespace Rrflow.Kernel

open Checks

abbrev RuntimeProperties := SortedMap String RuntimeValue

abbrev F32 := Fin (2 ^ 32)

abbrev F64 := Fin (2 ^ 64)

namespace F32

/-- Neither infinite nor not a number. -/
def isFinite (value : F32) : Bool := value.val / 2 ^ 23 % 2 ^ 8 != 255

end F32

namespace F64

def isFinite (value : F64) : Bool := value.val / 2 ^ 52 % 2 ^ 11 != 2047

/-- Monotone on finite values; both zeros have rank 0. -/
def rank (value : F64) : Int :=
  if value.val < 2 ^ 63 then value.val else -(value.val - 2 ^ 63 : Nat)

def oneEighty : F64 := ⟨0x4066800000000000, by decide⟩

def ninety : F64 := ⟨0x4056800000000000, by decide⟩

end F64

def isWhitespace (c : Char) : Bool :=
  let n := c.toNat
  (9 ≤ n && n ≤ 13) || n == 0x20 || n == 0x85 || n == 0xA0 || n == 0x1680 ||
    (0x2000 ≤ n && n ≤ 0x200A) || n == 0x2028 || n == 0x2029 || n == 0x202F || n == 0x205F ||
    n == 0x3000

/-- Nothing is left of the text after trimming. -/
def isBlank (text : String) : Bool := text.toList.all isWhitespace

def validateText (kind value : String) : Except Error Unit :=
  ensure (isBlank value = false ∧ Char.ofNat 0 ∉ value.toList)
    (.invalidRuntime (kind ++ " must be non-empty and contain no NUL bytes"))

def isLowerHex (c : Char) : Bool := c.isDigit || ('a' ≤ c && c ≤ 'f')

def validateDigest (kind value : String) : Except Error Unit :=
  ensure (value.utf8ByteSize = 64 ∧ value.toList.all isLowerHex)
    (.invalidRuntime (kind ++ " digest must be 64 lowercase hexadecimal characters"))

/-! ### Vectors -/

def maxVectorDimensions : Nat := 1048576

inductive VectorValue
  | dense (values : List F32)
  | sparse (dimensions : Nat) (indices : List Nat) (values : List F32)
  | multiDense (dimensions : Nat) (vectors : List (List F32))
  deriving DecidableEq

/-- What the runtime computes with floats. -/
structure Floats where
  /-- Every row has norm one up to 1e-4. -/
  unitL2 : VectorValue → Bool
  /-- The text parses as a finite float. -/
  finiteDecimal : String → Bool

def validateFinite (values : List F32) : Except Error Unit :=
  ensure (values.all F32.isFinite) (.invalidRuntime "vector values must be finite")

namespace VectorValue

def map (f : F32 → F32) : VectorValue → VectorValue
  | .dense values => .dense (values.map f)
  | .sparse dimensions indices values => .sparse dimensions indices (values.map f)
  | .multiDense dimensions vectors => .multiDense dimensions (vectors.map (·.map f))

def dimensions : VectorValue → Nat
  | .dense values => values.length
  | .sparse dimensions _ _ => dimensions
  | .multiDense dimensions _ => dimensions

def validate (value : VectorValue) : Except Error Unit := do
  ensure (value.dimensions ≠ 0 ∧ value.dimensions ≤ maxVectorDimensions)
    (.invalidRuntime ("vector dimensions must be in 1..=" ++ toString maxVectorDimensions ++
      ", got " ++ toString value.dimensions))
  match value with
  | .dense values => validateFinite values
  | .sparse dimensions indices values => do
      ensure (indices ≠ [] ∧ indices.length = values.length)
        (.invalidRuntime "sparse vector indices and values must have the same non-zero length")
      ensure (∀ index ∈ indices, index < dimensions)
        (.invalidRuntime "sparse vector index exceeds declared dimensions")
      ensure (indices.IsChain (· < ·))
        (.invalidRuntime "sparse vector indices must be strictly increasing")
      validateFinite values
  | .multiDense dimensions vectors => do
      ensure (vectors ≠ []) (.invalidRuntime "multi-vector must contain at least one vector")
      vectors.forM fun vector => do
        ensure (vector.length = dimensions)
          (.invalidRuntime "every multi-vector row must match declared dimensions")
        validateFinite vector

end VectorValue

inductive VectorNormalization
  | none | unitL2
  deriving DecidableEq, Repr

structure EmbeddingProvenance where
  sourceDigest : String
  model : String
  modelDigest : String
  dimensions : Nat
  normalization : VectorNormalization
  generationParameters : RuntimeProperties
  deriving DecidableEq

def EmbeddingProvenance.validate (provenance : EmbeddingProvenance) (dimensions : Nat) :
    Except Error Unit := do
  validateDigest "embedding source" provenance.sourceDigest
  validateDigest "embedding model" provenance.modelDigest
  validateText "embedding model" provenance.model
  ensure (provenance.dimensions = dimensions)
    (.invalidRuntime ("embedding provenance dimensions " ++ toString provenance.dimensions ++
      " do not match vector dimensions " ++ toString dimensions))

structure VectorCollectionAddress where
  collectionId : String
  vectorName : String
  deriving DecidableEq

def VectorCollectionAddress.validate (address : VectorCollectionAddress) : Except Error Unit := do
  validateText "vector collection id" address.collectionId
  validateText "vector name" address.vectorName

structure RuntimeVector where
  reference : RuntimeRef
  subject : RuntimeRef
  collection : VectorCollectionAddress
  field : String
  validFrom : Nat
  validTo : Option Nat
  value : VectorValue
  provenance : Option EmbeddingProvenance
  properties : RuntimeProperties
  deriving DecidableEq

def RuntimeVector.validate (floats : Floats) (vector : RuntimeVector) : Except Error Unit := do
  vector.collection.validate
  validateText "vector field" vector.field
  validateWindow vector.validFrom vector.validTo
  vector.value.validate
  match vector.provenance with
  | none => .ok ()
  | some provenance => do
      provenance.validate vector.value.dimensions
      ensure (provenance.normalization = .unitL2 → floats.unitL2 vector.value)
        (.invalidRuntime "vector marked unit_l2 is not unit normalized")

inductive SeriesValue
  | integer (value : Int)
  | unsigned (value : Nat)
  | decimal (text : String)
  | bool (value : Bool)
  | string (text : String)
  deriving DecidableEq

structure RuntimeSeriesSample where
  reference : RuntimeRef
  series : RuntimeRef
  observedAt : Nat
  value : SeriesValue
  properties : RuntimeProperties
  deriving DecidableEq

def RuntimeSeriesSample.validate (floats : Floats) (sample : RuntimeSeriesSample) :
    Except Error Unit :=
  match sample.value with
  | .decimal text => do
      validateText "series decimal" text
      ensure (floats.finiteDecimal text)
        (.invalidRuntime "series decimal must be a finite numeric string")
  | _ => .ok ()

structure GeoPoint where
  longitude : F64
  latitude : F64
  deriving DecidableEq

def GeoPoint.validate (point : GeoPoint) : Except Error Unit := do
  ensure (point.longitude.isFinite ∧ point.longitude.rank.natAbs ≤ F64.oneEighty.rank.natAbs)
    (.invalidRuntime "longitude must be finite and in [-180, 180]")
  ensure (point.latitude.isFinite ∧ point.latitude.rank.natAbs ≤ F64.ninety.rank.natAbs)
    (.invalidRuntime "latitude must be finite and in [-90, 90]")

inductive GeoValue
  | point (location : GeoPoint)
  | boundingBox (southwest northeast : GeoPoint)
  deriving DecidableEq

def GeoValue.validate : GeoValue → Except Error Unit
  | .point location => location.validate
  | .boundingBox southwest northeast => do
      southwest.validate
      northeast.validate
      ensure (southwest.longitude.rank ≤ northeast.longitude.rank ∧
          southwest.latitude.rank ≤ northeast.latitude.rank)
        (.invalidRuntime "geo bounding box corners are inverted")

structure RuntimeGeo where
  reference : RuntimeRef
  subject : RuntimeRef
  field : String
  validFrom : Nat
  validTo : Option Nat
  value : GeoValue
  properties : RuntimeProperties
  deriving DecidableEq

def RuntimeGeo.validate (geo : RuntimeGeo) : Except Error Unit := do
  validateText "geo field" geo.field
  validateWindow geo.validFrom geo.validTo
  geo.value.validate

structure ObjectReceipt where
  backend : String
  key : String
  version : Option String
  etag : Option String
  deriving DecidableEq

structure ObjectReference where
  reference : RuntimeRef
  subject : Option RuntimeRef
  sha256 : String
  length : Nat
  mediaType : String
  receipt : ObjectReceipt
  properties : RuntimeProperties
  deriving DecidableEq

def ObjectReference.canonicalKey (sha256 : String) : Except Error String := do
  validateDigest "object" sha256
  return "objects/sha256/" ++ String.ofList (sha256.toList.take 2) ++ "/" ++ sha256

/-- A character of a quoted text: quotes, backslashes and the common controls
are escaped. -/
def escaped (c : Char) : List Char :=
  let backslash := Char.ofNat 92
  match c.toNat with
  | 0 => [backslash, '0']
  | 9 => [backslash, 't']
  | 10 => [backslash, 'n']
  | 13 => [backslash, 'r']
  | 34 => [backslash, c]
  | 92 => [backslash, c]
  | _ => [c]

def quoted (text : String) : String :=
  String.ofList ([Char.ofNat 34] ++ text.toList.flatMap escaped ++ [Char.ofNat 34])

def ObjectReference.validate (object : ObjectReference) : Except Error Unit := do
  validateDigest "object" object.sha256
  validateText "object media type" object.mediaType
  validateText "object backend" object.receipt.backend
  validateText "object key" object.receipt.key
  match object.receipt.version with
  | some version => validateText "object version" version
  | none => .ok ()
  match object.receipt.etag with
  | some etag => validateText "object ETag" etag
  | none => .ok ()
  let expected ← ObjectReference.canonicalKey object.sha256
  ensure (object.receipt.key = expected)
    (.invalidRuntime ("object key " ++ quoted object.receipt.key ++
      " is not canonical for digest " ++ object.sha256))

end Rrflow.Kernel

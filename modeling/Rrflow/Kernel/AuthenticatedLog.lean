import Rrflow.Kernel.Ident
import Rrflow.Lib.Merkle
import Rrflow.Lib.Octets

/-!
The authenticated append-only log.

The tree follows RFC 9162: the empty root hashes the empty string, leaves hash
`0x00 || input` and parents `0x01 || left || right`. An accumulator keeps one
complete subtree for every bit of its size, an append carries like a binary
counter and emits each subtree it completes, and a proof is a path of siblings
that the verifier folds by the bits of the index and of the last index.

SHA-256 is a parameter. Its values are the 32 bytes of the source, written as
lowercase hexadecimal text wherever the source does.
-/

namespace Rrflow.Kernel.AuthenticatedLog

open Checks Merkle

abbrev Byte := Fin 256

abbrev Digest := { bytes : List Byte // bytes.length = 32 }

def runtimeLogAccumulatorVersion : Nat := 1

/-! ### Hexadecimal text -/

def hexDigits : List Char := "0123456789abcdef".toList

def hexByte (byte : Byte) : List Char :=
  [hexDigits.getD (byte.val / 16) '0', hexDigits.getD (byte.val % 16) '0']

def hex (digest : Digest) : String := String.ofList (digest.1.flatMap hexByte)

/-- The value of a lowercase digit. -/
def digit (c : Char) : Option Nat :=
  if '0' ≤ c ∧ c ≤ '9' then some (c.toNat - '0'.toNat)
  else if 'a' ≤ c ∧ c ≤ 'f' then some (c.toNat - 'a'.toNat + 10)
  else none

def bytesOfHex : List Char → Option (List Byte)
  | [] => some []
  | [_] => none
  | high :: low :: rest => do
      let high ← digit high
      let low ← digit low
      let bytes ← bytesOfHex rest
      return Fin.ofNat 256 (high * 16 + low) :: bytes

def fromHex (value : String) : Option Digest := do
  let bytes ← bytesOfHex value.toList
  if h : bytes.length = 32 then some ⟨bytes, h⟩ else none

def parseDigest (label value : String) : Except Error Digest := do
  ensure (value.utf8ByteSize = 64)
    (.invalidRuntime (label ++ " must be a 64-character SHA-256 digest"))
  match fromHex value with
  | some digest => return digest
  | none => invalid (label ++ " must contain lowercase hexadecimal")

section Hashes

variable (sha256 : List Byte → Digest)

def emptyRoot : Digest := sha256 []

def leafHash (input : List Byte) : Digest := sha256 (0 :: input)

def nodeHash (left right : Digest) : Digest := sha256 (1 :: (left.1 ++ right.1))

/-- The root of RFC 9162 over a list of leaf inputs. -/
def mth (inputs : List (List Byte)) : Digest :=
  root (emptyRoot sha256) (nodeHash sha256) (inputs.map (leafHash sha256))

end Hashes

structure RuntimeMerkleNode where
  level : Nat
  index : Nat
  digest : String
  deriving DecidableEq, Repr

structure RuntimeInclusionProof where
  version : Nat
  treeSize : Nat
  leafIndex : Nat
  path : List String
  deriving DecidableEq, Repr

/-- Halves both numbers while the first is even and not zero. -/
def skipEven (leaf last : Nat) : Nat × Nat :=
  if leaf ≠ 0 ∧ leaf % 2 = 0 then skipEven (leaf / 2) (last / 2) else (leaf, last)
  termination_by leaf

/-- The position of the parent. A last leaf without a sibling first rises to the
level where it has one. -/
def nextPosition (leaf last : Nat) : Nat × Nat :=
  let position := if leaf % 2 = 0 ∧ leaf = last then skipEven leaf last else (leaf, last)
  (position.1 / 2, position.2 / 2)

/-- The loop of the verifier over the path, generic in what it computes with. -/
def foldPath {H : Type} (parse : String → Except Error H) (node : H → H → H) :
    Nat → Nat → H → List String → Except Error (H × Nat)
  | _, last, computed, [] => .ok (computed, last)
  | leaf, last, computed, sibling :: rest => do
      ensure (last ≠ 0)
        (.invalidRuntime "runtime inclusion proof contains excess path nodes")
      let sibling ← parse sibling
      foldPath parse node (nextPosition leaf last).1 (nextPosition leaf last).2
        (if leaf % 2 = 1 ∨ leaf = last then node sibling computed else node computed sibling) rest

def parseSibling : String → Except Error Digest := parseDigest "runtime inclusion-proof node"

namespace RuntimeInclusionProof

def verify (sha256 : List Byte → Digest) (proof : RuntimeInclusionProof) (leafInput : List Byte)
    (expectedRoot : String) : Except Error Unit := do
  ensure (proof.version = runtimeLogAccumulatorVersion)
    (.invalidRuntime ("unsupported runtime inclusion-proof version " ++ toString proof.version))
  ensure (proof.treeSize ≠ 0 ∧ proof.leafIndex < proof.treeSize)
    (.invalidRuntime "runtime inclusion proof names a leaf outside its tree")
  let expected ← parseDigest "runtime accumulator root" expectedRoot
  let result ← foldPath parseSibling (nodeHash sha256) proof.leafIndex (proof.treeSize - 1)
    (leafHash sha256 leafInput) proof.path
  ensure (result.2 = 0 ∧ result.1 = expected)
    (.invalidRuntime "runtime inclusion proof does not match its accumulator root")

end RuntimeInclusionProof

/-! ### Accumulators -/

/-- The compact range of the current prefix: `frontier[level]` is populated exactly
when bit `level` of `treeSize` is set. -/
structure RuntimeLogAccumulator where
  version : Nat
  treeSize : Nat
  frontier : List (Option String)
  root : String
  deriving DecidableEq, Repr

def levels (treeSize : Nat) : Nat := if treeSize = 0 then 0 else Nat.log 2 treeSize + 1

def parseFrontier : String → Except Error Digest := parseDigest "runtime accumulator frontier node"

namespace RuntimeLogAccumulator

variable (sha256 : List Byte → Digest)

def new : RuntimeLogAccumulator where
  version := runtimeLogAccumulatorVersion
  treeSize := 0
  frontier := []
  root := hex (emptyRoot sha256)

/-- The subtrees of a frontier combined from the smallest one on. -/
def frontierRoot (frontier : List (Option String)) : Except Error Digest := do
  let root ← (frontier.filterMap id).foldlM
    (fun (root : Option Digest) value => do
      let next ← parseFrontier value
      return some (root.elim next (nodeHash sha256 next))) none
  return root.getD (emptyRoot sha256)

def validateLevel (treeSize : Nat) (value : Option String) (level : Nat) : Except Error Unit := do
  ensure (value.isSome = treeSize.testBit level)
    (.invalidRuntime ("runtime accumulator frontier level " ++ toString level ++
      " disagrees with tree size " ++ toString treeSize))
  value.toList.forM fun value => do
    let _ ← parseFrontier value

def validate (accumulator : RuntimeLogAccumulator) : Except Error Unit := do
  ensure (accumulator.version = runtimeLogAccumulatorVersion)
    (.invalidRuntime ("unsupported runtime accumulator version " ++
      toString accumulator.version))
  ensure (accumulator.frontier.length ≤ 64)
    (.invalidRuntime "runtime accumulator frontier exceeds u64 tree depth")
  accumulator.frontier.zipIdx.forM fun entry => validateLevel accumulator.treeSize entry.1 entry.2
  ensure (accumulator.frontier.length = levels accumulator.treeSize)
    (.invalidRuntime ("runtime accumulator frontier has " ++
      toString accumulator.frontier.length ++ " levels, expected " ++
      toString (levels accumulator.treeSize)))
  let root ← parseDigest "runtime accumulator root" accumulator.root
  let computed ← frontierRoot sha256 accumulator.frontier
  ensure (root = computed)
    (.invalidRuntime "runtime accumulator root disagrees with its frontier")

/-- The binary carry of an append, over the frontier from `level` on. Each subtree
completed on the way is emitted. -/
def carry (frontier : List (Option String)) (index level : Nat) (node : Digest) :
    Except Error (List (Option String) × List RuntimeMerkleNode) :=
  if index % 2 = 1 then
    match frontier with
    | some left :: rest => do
        let left ← parseFrontier left
        let (rest, created) ← carry rest (index / 2) (level + 1) (nodeHash sha256 left node)
        return (none :: rest, ⟨level, index, hex node⟩ :: created)
    | _ => invalid ("runtime accumulator is missing frontier level " ++ toString level)
  else .ok (some (hex node) :: frontier.tail, [⟨level, index, hex node⟩])

/-- Appends a leaf and returns the subtrees it completes. -/
def append (accumulator : RuntimeLogAccumulator) (leafInput : List Byte) :
    Except Error (RuntimeLogAccumulator × List RuntimeMerkleNode) := do
  accumulator.validate sha256
  ensure (accumulator.treeSize ≠ 2 ^ 64 - 1)
    (.invalidRuntime "runtime accumulator tree size overflow")
  let (frontier, created) ← carry sha256 accumulator.frontier accumulator.treeSize 0
    (leafHash sha256 leafInput)
  let root ← frontierRoot sha256 frontier
  let next : RuntimeLogAccumulator :=
    { accumulator with frontier, treeSize := accumulator.treeSize + 1, root := hex root }
  next.validate sha256
  return (next, created)

/-- Appends leaf after leaf and collects what is emitted. -/
def appendAll (inputs : List (List Byte)) :
    Except Error (RuntimeLogAccumulator × List RuntimeMerkleNode) :=
  inputs.foldlM
    (fun state input => do
      let (accumulator, created) ← append sha256 state.1 input
      return (accumulator, state.2 ++ created))
    (new sha256, [])

end RuntimeLogAccumulator

abbrev NodeSource := Nat → Nat → Except Error (Option String)

def storedNodes (nodes : List RuntimeMerkleNode) : NodeSource := fun level index =>
  .ok ((nodes.find? fun node => node.level = level ∧ node.index = index).map
    RuntimeMerkleNode.digest)

/-- A node that must be stored, with a digest that parses. -/
def requireNode (nodeAt : NodeSource) (missing label : String) (level index : Nat) :
    Except Error String := do
  match ← nodeAt level index with
  | some value => do
      let _ ← parseDigest label value
      return value
  | none => invalid ("runtime accumulator is missing " ++ missing ++ " at level " ++
      toString level ++ ", index " ++ toString index)

/-- The subtrees of a size from the highest level down. -/
def frontierNodes (treeSize : Nat) (nodeAt : NodeSource) :
    (level start : Nat) → Except Error (List (Option String))
  | 0, _ => .ok []
  | level + 1, start =>
    if treeSize.testBit level then do
      let value ← requireNode nodeAt "frontier node" "runtime accumulator frontier node" level
        (start / 2 ^ level)
      let lower ← frontierNodes treeSize nodeAt level (start + 2 ^ level)
      return lower ++ [some value]
    else do
      let lower ← frontierNodes treeSize nodeAt level start
      return lower ++ [none]

/-- The digest of a range of leaves that starts at a multiple of its split. -/
def rangeHash (sha256 : List Byte → Digest) (nodeAt : NodeSource) (start size : Nat) :
    Except Error String :=
  if _hpower : 2 ^ Nat.log 2 size = size ∨ size < 2 then
    requireNode nodeAt "node" "runtime accumulator node" (Nat.log 2 size) (start / size)
  else do
    let left ← rangeHash sha256 nodeAt start (split size)
    let left ← parseDigest "runtime accumulator node" left
    let right ← rangeHash sha256 nodeAt (start + split size) (size - split size)
    let right ← parseDigest "runtime accumulator node" right
    return hex (nodeHash sha256 left right)
  termination_by size
  decreasing_by
  · exact split_lt (by omega)
  · have := split_pos size
    omega

/-- The siblings of a leaf within a range, the sibling of the whole range last. -/
def buildPath (sha256 : List Byte → Digest) (nodeAt : NodeSource) (start size leafIndex : Nat) :
    Except Error (List String) :=
  if _hone : size ≤ 1 then .ok []
  else if leafIndex < start + split size then do
    let path ← buildPath sha256 nodeAt start (split size) leafIndex
    let sibling ← rangeHash sha256 nodeAt (start + split size) (size - split size)
    return path ++ [sibling]
  else do
    let path ← buildPath sha256 nodeAt (start + split size) (size - split size)
      leafIndex
    let sibling ← rangeHash sha256 nodeAt start (split size)
    return path ++ [sibling]
  termination_by size
  decreasing_by
  · exact split_lt (by omega)
  · have := split_pos size
    omega

namespace RuntimeLogAccumulator

variable (sha256 : List Byte → Digest)

/-- The accumulator of a retained prefix, from the complete subtrees that are
stored, under the root it must have. -/
def fromNodes (treeSize : Nat) (expectedRoot : String) (nodeAt : NodeSource) :
    Except Error RuntimeLogAccumulator := do
  let _ ← parseDigest "runtime accumulator root" expectedRoot
  if treeSize = 0 then do
    ensure ((new sha256).root = expectedRoot)
      (.invalidRuntime "empty runtime accumulator root does not match")
    return new sha256
  else do
    let frontier ← frontierNodes treeSize nodeAt (levels treeSize) 0
    let accumulator : RuntimeLogAccumulator :=
      { version := runtimeLogAccumulatorVersion, treeSize, frontier, root := expectedRoot }
    accumulator.validate sha256
    return accumulator

def inclusionProof (accumulator : RuntimeLogAccumulator) (leafIndex : Nat) (nodeAt : NodeSource) :
    Except Error RuntimeInclusionProof := do
  accumulator.validate sha256
  ensure (leafIndex < accumulator.treeSize)
    (.invalidRuntime "runtime inclusion proof names a leaf outside its tree")
  let path ← buildPath sha256 nodeAt 0 accumulator.treeSize leafIndex
  return { version := runtimeLogAccumulatorVersion, treeSize := accumulator.treeSize, leafIndex
           path }

end RuntimeLogAccumulator

end Rrflow.Kernel.AuthenticatedLog

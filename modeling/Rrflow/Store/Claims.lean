import Rrflow.Store.SemanticCommit

/-!
The claim log.

Claims are appended in batches, alone or as part of a semantic commit. A claim is
stored under its subject, predicate, start and transaction time; the sequence index
holds that key and not the claim.
-/

namespace Rrflow.Store

open Kernel Checks

def encodeClaims (sequence : Nat) (claims : List Claim) : Except Error (Nat × List ClaimWrite) :=
  claims.foldlM (fun (state : Nat × List ClaimWrite) claim => do
    let (sequence, writes) ← encodeClaim state.1 claim
    return (sequence, state.2 ++ writes)) (sequence, [])

variable (state : ClaimSpaces)

def appendBatch (claims : List Claim) : Except Error (AppendOutcome × List ClaimWrite) := do
  claims.forM fun claim => lift claim.validate
  let start := state.watermark
  if claims = [] then
    return ({ firstSequence := start, lastSequence := start, count := 0 }, [])
  let (sequence, writes) ← encodeClaims start claims
  return ({ firstSequence := start + 1, lastSequence := sequence, count := claims.length },
    writes ++ [.watermark sequence])

def isIdempotencyChar (c : Char) : Bool :=
  c.isAlphanum || c == '-' || c == '_' || c == '.' || c == ':'

def validateIdempotency (key digest : String) : Except Error Unit := do
  ensure (key ≠ "" ∧ key.utf8ByteSize ≤ 128 ∧ key.toList.all isIdempotencyChar)
    (.substrate "invalid idempotency key")
  ensure (digest.utf8ByteSize = 64 ∧ digest.toList.all isLowerHex)
    (.substrate "operation digest must be lowercase SHA-256")

/-- The accepted outcome of a key, for the same operation only. -/
def replayedAppend (key operationSha256 : String) (outcome : IdempotentAppendOutcome) :
    Except Error IdempotentAppendOutcome := do
  ensure (outcome.operationSha256 = operationSha256) (.idempotencyConflict key)
  return { outcome with idempotentReplay := true }

def appendBatchIdempotent (key operationSha256 : String) (claims : List Claim) :
    Except Error (IdempotentAppendOutcome × List ClaimWrite) := do
  validateIdempotency key operationSha256
  ensure (claims ≠ []) (.substrate "idempotent claim append must not be empty")
  claims.forM fun claim => lift claim.validate
  match state.receipts.find? key with
  | some outcome => do
      let outcome ← replayedAppend key operationSha256 outcome
      return (outcome, [])
  | none => do
      let start := state.watermark
      let (sequence, writes) ← encodeClaims start claims
      let append : AppendOutcome :=
        { firstSequence := start + 1, lastSequence := sequence, count := claims.length }
      let outcome : IdempotentAppendOutcome :=
        { operationSha256, append, idempotentReplay := false }
      return (outcome, writes ++ [.watermark sequence, .receipt key outcome])

/-- One row of the sequence index: it must carry the expected number and point at a
stored claim. -/
def claimAt (start last : Nat) (claims : List Claim) (row : Nat × ClaimKey) :
    Except Error (List Claim) := do
  let expected := start + 1 + claims.length
  ensure (row.1 = expected)
    (.substrate ("claim sequence index expected " ++ toString expected ++ " but found " ++
      toString row.1))
  match state.claims.find? row.2 with
  | none => .error (.substrate ("claim sequence index references an absent claim in (" ++
      toString start ++ ", " ++ toString last ++ "]"))
  | some claim => do
      ensure (expected < u64Max) .sequenceOverflow
      return claims ++ [claim]

def claimsInRange (start stop : Nat) : Except Error (List Claim) :=
  let last := min stop state.watermark
  if stop ≤ start ∨ last ≤ start then .ok []
  else do
    let rows := state.sequence.toList.filter fun row => start < row.1 ∧ row.1 ≤ last
    let claims ← rows.foldlM (claimAt state start last) []
    ensure (claims.length = last - start)
      (.substrate ("claim sequence index returned " ++ toString claims.length ++
        " rows for expected interval (" ++ toString start ++ ", " ++ toString last ++ "]"))
    return claims

end Rrflow.Store

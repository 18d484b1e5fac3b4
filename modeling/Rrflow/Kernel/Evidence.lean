import Rrflow.Kernel.AuthenticatedLog
import Rrflow.Kernel.Snapshot

/-!
Digest-bound evidence: changes in their hash chain, read stamps and audit
envelopes.

SHA-256 over the canonical bytes of a value is a parameter: all the code relies on
is that a digest is a function of the other fields and passes the check of
digests. The root of the authenticated log is the one of the tree of its changes. A change is kept as JSON text; which number the text of a 32-bit float
gives when it is read back is a parameter too.
-/

namespace Rrflow.Kernel

open Checks

def dataRuntimeContractVersion : Nat := 1

/-- The state of the runtime that a reader or the author of a commit saw. -/
structure ReadStamp where
  contractVersion : Nat
  scope : ScopeId
  schemaRevision : Option Nat
  catalogRevision : Nat
  commitCursor : Nat
  headDigest : Option String
  accumulatorRoot : Option String
  manifestId : String
  deriving DecidableEq

inductive AuditDecision
  | allow | deny
  deriving DecidableEq, Repr

structure AuditEnvelope where
  contractVersion : Nat
  requestId : String
  parentRequestId : Option String
  at_ : Nat
  actor : String
  scope : ScopeId
  operation : String
  resource : String
  read : Option ReadStamp
  decision : AuditDecision
  outcomeCursor : Option Nat
  durationMs : Nat
  previousDigest : Option String
  digest : String
  deriving DecidableEq

structure RuntimeCommitOutcome where
  commitId : String
  firstCursor : Nat
  lastCursor : Nat
  count : Nat
  firstClaimSequence : Option Nat
  lastClaimSequence : Option Nat
  outboxCount : Nat
  deriving DecidableEq

/-- The digits of a digest in either case. -/
def isHexDigit (c : Char) : Bool := c.isDigit || ('a' ≤ c && c ≤ 'f') || ('A' ≤ c && c ≤ 'F')

def IsHex (value : String) : Prop := value.utf8ByteSize = 64 ∧ value.toList.all isHexDigit = true

instance (value : String) : Decidable (IsHex value) := inferInstanceAs (Decidable (_ ∧ _))

def validateHex (kind value : String) : Except Error Unit :=
  ensure (IsHex value)
    (.invalidRuntime (kind ++ " must be a 64-character hexadecimal SHA-256 digest"))

/-- The digests of the values of the runtime, each over all fields but the one that
holds the digest itself, and the numbers that the texts of changes are read back with. -/
structure Digests where
  commit : RuntimeCommit → String
  change : RuntimeChange → String
  stamp : ReadStamp → String
  audit : AuditEnvelope → String
  root : List RuntimeChange → String
  sha256 : List (Fin 256) → AuthenticatedLog.Digest
  bytes : RuntimeChange → List (Fin 256)
  rounded : F32 → F32
  commit_hex : ∀ value, IsHex (commit value)
  change_hex : ∀ value, IsHex (change value)
  stamp_hex : ∀ value, IsHex (stamp value)
  audit_hex : ∀ value, IsHex (audit value)
  root_hex : ∀ leaves, IsHex (root leaves)
  root_eq : ∀ leaves, root leaves = AuthenticatedLog.hex (AuthenticatedLog.mth sha256 (leaves.map bytes))
  /-- A change and what its text is read back as do not collide. -/
  change_reread : ∀ value, change (value.reread rounded) = change value →
    value.reread rounded = value

variable (digests : Digests)

def RuntimeChange.committed (cursor : Nat) (commit : RuntimeCommit) (commitId : String)
    (commitOrdinal : Nat) (mutation : RuntimeMutation) (previousDigest : Option String) :
    RuntimeChange :=
  let change : RuntimeChange :=
    { cursor, commitId, commitOrdinal, scope := commit.scope, at_ := commit.at_
      actor := commit.actor, mutation, previousDigest, digest := "" }
  { change with digest := digests.change change }

def RuntimeChange.verifyDigest (change : RuntimeChange) : Bool :=
  digests.change { change with digest := "" } = change.digest

/-- The text of a change is read back as the change. -/
def RuntimeChange.Survives (change : RuntimeChange) : Prop :=
  change.reread digests.rounded = change

instance (change : RuntimeChange) : Decidable (change.Survives digests) :=
  inferInstanceAs (Decidable (_ = _))

/-- The texts of all changes of a log are read back as they were. -/
def Exact (log : List RuntimeChange) : Prop := ∀ change ∈ log, change.Survives digests

instance (log : List RuntimeChange) : Decidable (Exact digests log) :=
  inferInstanceAs (Decidable (∀ change ∈ log, _))

/-- The work on projections that a mutation leaves behind. -/
def RuntimeMutation.isProjected : RuntimeMutation → Bool
  | .claim _ | .schema _ => false
  | .retire retirement => retirement.model ≠ .reasoningClaim
  | _ => true

def RuntimeMutation.references : RuntimeMutation → List RuntimeRef
  | .relation value => [value.from_, value.to_]
  | .event value => value.subject.toList
  | .vector value => [value.subject]
  | .seriesSample sample => [sample.series]
  | .geo value => [value.subject]
  | .object value => value.subject.toList
  | .claim _ | .schema _ | .record _ | .retire _ => []

variable (stamp : ReadStamp)

namespace ReadStamp

/-- An empty runtime has no head, any other one has. -/
def validateHead : Except Error Unit :=
  match stamp.commitCursor, stamp.headDigest with
  | 0, none => .ok ()
  | 0, some _ => invalid "an empty runtime cannot have a hash-chain head"
  | _ + 1, some value => validateHex "read stamp hash-chain head" value
  | _ + 1, none => invalid "a non-empty runtime must carry its hash-chain head"

def validateComponents : Except Error Unit := do
  ensure (stamp.contractVersion = dataRuntimeContractVersion)
    (.invalidRuntime ("unsupported data-runtime contract version " ++
      toString stamp.contractVersion))
  ensure (stamp.schemaRevision ≠ some 0)
    (.invalidRuntime "schema revision zero is not a valid installed revision")
  stamp.validateHead
  stamp.accumulatorRoot.toList.forM (validateHex "read stamp accumulator root")

/-- A stamp that carries the root of the log. -/
def authenticated (scope : ScopeId) (schemaRevision : Option Nat)
    (catalogRevision commitCursor : Nat) (headDigest : Option String) (accumulatorRoot : String) :
    Except Error ReadStamp := do
  let stamp : ReadStamp :=
    { contractVersion := dataRuntimeContractVersion, scope, schemaRevision, catalogRevision
      commitCursor, headDigest, accumulatorRoot := some accumulatorRoot, manifestId := "" }
  stamp.validateComponents
  return { stamp with manifestId := digests.stamp stamp }

def validate : Except Error Unit := do
  stamp.validateComponents
  validateHex "read stamp manifest" stamp.manifestId
  ensure (stamp.manifestId = digests.stamp { stamp with manifestId := "" })
    (.invalidRuntime "read stamp manifest digest does not match its fields")

end ReadStamp

variable (envelope : AuditEnvelope)

namespace AuditEnvelope

def validateComponents : Except Error Unit := do
  ensure (envelope.contractVersion = dataRuntimeContractVersion)
    (.invalidRuntime ("unsupported audit contract version " ++ toString envelope.contractVersion))
  checkText "audit request id" envelope.requestId
  checkText "audit actor" envelope.actor
  checkText "audit operation" envelope.operation
  checkText "audit resource" envelope.resource
  envelope.parentRequestId.toList.forM (checkText "audit parent request id")
  envelope.read.toList.forM fun read => do
    read.validate digests
    ensure (read.scope = envelope.scope)
      (.invalidRuntime "audit read stamp scope differs from audit scope")
  envelope.previousDigest.toList.forM (validateHex "previous audit envelope")

def sealed : Except Error AuditEnvelope := do
  envelope.validateComponents digests
  return { envelope with digest := digests.audit { envelope with digest := "" } }

def validate : Except Error Unit := do
  envelope.validateComponents digests
  validateHex "audit envelope" envelope.digest
  ensure (envelope.digest = digests.audit { envelope with digest := "" })
    (.invalidRuntime "audit envelope digest does not match its fields")

/-- The envelope of an accepted commit. -/
def acceptedCommitAtRead (commit : RuntimeCommit) (read : Option ReadStamp) (commitId : String)
    (outcomeCursor : Nat) (previousDigest : Option String) : Except Error AuditEnvelope :=
  sealed digests
    { contractVersion := dataRuntimeContractVersion, requestId := commitId
      parentRequestId := none, at_ := commit.at_, actor := commit.actor, scope := commit.scope
      operation := "runtime.commit", resource := "transaction:" ++ commitId, read
      decision := .allow, outcomeCursor := some outcomeCursor, durationMs := 0, previousDigest
      digest := "" }

end AuditEnvelope

variable {digests}

theorem RuntimeChange.verifyDigest_committed (cursor : Nat) (commit : RuntimeCommit)
    (commitId : String) (ordinal : Nat) (mutation : RuntimeMutation) (previous : Option String) :
    (committed digests cursor commit commitId ordinal mutation previous).verifyDigest digests =
      true := by
  simp [committed, verifyDigest]

/-- What is read back passes the check of its digest only if nothing was lost. -/
theorem RuntimeChange.survives_iff {change : RuntimeChange}
    (h : change.verifyDigest digests = true) :
    change.Survives digests ↔ (change.reread digests.rounded).verifyDigest digests = true := by
  refine ⟨fun hsurvives => hsurvives.symm ▸ h, fun hreread => ?_⟩
  have hequal := (of_decide_eq_true hreread).trans (of_decide_eq_true h).symm
  have hvalue := digests.change_reread { change with digest := "" } hequal
  exact congrArg (fun value : RuntimeChange => { value with digest := change.digest }) hvalue

theorem RuntimeChange.Survives.stored {change : RuntimeChange} {claim : Claim}
    (h : change.Survives digests) (hclaim : change.mutation = .claim claim) :
    claim.stored = claim := by
  have hmutation := congrArg RuntimeChange.mutation h
  simp only [RuntimeChange.reread, hclaim, RuntimeMutation.reread,
    RuntimeMutation.claim.injEq] at hmutation
  have hconfidence := congrArg Claim.confidence hmutation
  refine Claim.stored_eq_self.mpr ?_
  cases hvalue : claim.confidence with
  | none => rfl
  | some value =>
    by_contra hinfinite
    simp_all [Claim.stored, Option.filter]

theorem RuntimeChange.survives_of_schema {change : RuntimeChange}
    (h : change.mutation.schema?.isSome) : change.Survives digests := by
  obtain ⟨cursor, commitId, ordinal, scope, at_, actor, mutation, previous, digest⟩ := change
  cases mutation with
  | schema registry => rfl
  | _ => cases h

theorem IsHex.ne_empty {value : String} (h : IsHex value) : value ≠ "" := by
  rintro rfl
  exact absurd h.1 (by decide)

theorem RuntimeChange.isHex_digest {change : RuntimeChange}
    (h : change.verifyDigest digests = true) : IsHex change.digest := by
  have heq : digests.change { change with digest := "" } = change.digest := by
    simpa [RuntimeChange.verifyDigest] using h
  exact heq ▸ digests.change_hex _

theorem validateHex_eq_ok {kind value : String} : validateHex kind value = .ok () ↔ IsHex value :=
  ensure_eq_ok

theorem IsHex.nul_not_mem {value : String} (h : IsHex value) : Char.ofNat 0 ∉ value.toList := by
  intro hmem
  exact absurd (List.all_eq_true.mp h.2 _ hmem) (by decide)

theorem checkText_eq_ok {kind value : String} :
    checkText kind value = .ok () ↔ value ≠ "" ∧ Char.ofNat 0 ∉ value.toList := by
  simp [checkText, bind_eq_ok]

theorem AuditEnvelope.exists_acceptedCommit {commit : RuntimeCommit} {commitId : String}
    (hactor : checkText "audit actor" commit.actor = .ok ()) (hid : IsHex commitId)
    {previous : Option String} (hprevious : ∀ digest ∈ previous, IsHex digest)
    (outcomeCursor : Nat) :
    ∃ audit, acceptedCommitAtRead digests commit none commitId outcomeCursor previous =
      .ok audit := by
  have hresource : Char.ofNat 0 ∉ ("transaction:" ++ commitId).toList := by
    rw [String.toList_append, List.mem_append]
    exact not_or.mpr ⟨by decide, hid.nul_not_mem⟩
  simp only [acceptedCommitAtRead, sealed, validateComponents, bind_eq_ok, ensure_eq_ok, forM_eq_ok]
  refine ⟨_, (), ⟨(), trivial, (), checkText_eq_ok.mpr ⟨hid.ne_empty, hid.nul_not_mem⟩, (), hactor,
    (), by decide, (), checkText_eq_ok.mpr ⟨?_, hresource⟩, (), by simp, (), by simp, ?_⟩, rfl⟩
  · intro hempty
    have := congrArg String.utf8ByteSize hempty
    simp [String.utf8ByteSize_append] at this
  · intro digest hmem
    exact validateHex_eq_ok.mpr (hprevious digest (by simpa using hmem))

end Rrflow.Kernel

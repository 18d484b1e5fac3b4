import Rrflow.Store.Claims
import Rrflow.Store.Control

/-!
The requests of the store and the states they lead to.

Every request is one storage transaction: it is prepared against a state, and its
writes are applied as a whole or not at all.
-/

namespace Rrflow.Store

open Kernel Checks

inductive Request
  | commit (commit : RuntimeCommit) (read : Option ReadStamp) (archivedAudit : Option AuditEnvelope)
  | append (claims : List Claim)
  | appendIdempotent (key operationSha256 : String) (claims : List Claim)
  | control (transition : ControlTransition) (catalogScope : Option ScopeId)
      (definitions : Option (Nat × List IndexCommitBindingDefinition))
  | controlBatch (transitions : List ControlTransition)
  | commitWithControl (commit : RuntimeCommit) (transitions : List ControlTransition)

variable (externals : Externals)

/-- The writes of a request. A control batch that travels with a commit is prepared
on top of it. -/
def Request.prepare (state : State) : Request → Except Error (List Write)
  | .commit proposed read archivedAudit => do
      let (_, writes) ← prepareSemanticCommit externals state proposed read archivedAudit
      return writes
  | .append claims => do
      let (_, writes) ← appendBatch state.claims claims
      return writes.map .claim
  | .appendIdempotent key operationSha256 claims => do
      let (_, writes) ← appendBatchIdempotent state.claims key operationSha256 claims
      return writes.map .claim
  | .control transition catalogScope definitions => do
      let (_, writes) ← commitOne externals state transition catalogScope definitions
      return writes.map .control
  | .controlBatch transitions => do
      let (_, writes) ← prepareControlBatch externals state.control transitions
      return writes.map .control
  | .commitWithControl proposed transitions => do
      let (_, writes) ← prepareSemanticCommit externals state proposed none none
      let (_, more) ← prepareControlBatch externals (state.applyAll writes).control transitions
      return writes ++ more.map .control

/-- What the writes of an accepted request consist of. -/
inductive Prepared (state : State) : Request → List Write → Prop
  | commit {proposed read archivedAudit outcome writes} :
      prepareSemanticCommit externals state proposed read archivedAudit = .ok (outcome, writes) →
      Prepared state (.commit proposed read archivedAudit) writes
  | append {claims outcome writes} : appendBatch state.claims claims = .ok (outcome, writes) →
      Prepared state (.append claims) (writes.map .claim)
  | appendIdempotent {key operationSha256 claims outcome writes} :
      appendBatchIdempotent state.claims key operationSha256 claims = .ok (outcome, writes) →
      Prepared state (.appendIdempotent key operationSha256 claims) (writes.map .claim)
  | control {transition catalogScope definitions entry writes} :
      commitOne externals state transition catalogScope definitions = .ok (entry, writes) →
      Prepared state (.control transition catalogScope definitions) (writes.map .control)
  | controlBatch {transitions entries writes} :
      prepareControlBatch externals state.control transitions = .ok (entries, writes) →
      Prepared state (.controlBatch transitions) (writes.map .control)
  | commitWithControl {proposed transitions outcome writes entries more} :
      prepareSemanticCommit externals state proposed none none = .ok (outcome, writes) →
      prepareControlBatch externals (state.applyAll writes).control transitions =
        .ok (entries, more) →
      Prepared state (.commitWithControl proposed transitions) (writes ++ more.map .control)

theorem Request.prepared {externals : Externals} {state : State} {request : Request}
    {writes : List Write} (h : request.prepare externals state = .ok writes) :
    Prepared externals state request writes := by
  cases request <;> simp only [Request.prepare, bind_eq_ok] at h
  case commitWithControl =>
    obtain ⟨⟨_, _⟩, hcommit, ⟨_, _⟩, hbatch, h⟩ := h
    exact Except.ok.inj h ▸ .commitWithControl hcommit hbatch
  all_goals
    obtain ⟨⟨_, _⟩, hprepare, h⟩ := h
    obtain rfl := Except.ok.inj h
    constructor
    exact hprepare

/-- The states that requests lead to, one after the other. -/
inductive Reachable : State → Prop
  | empty : Reachable State.empty
  | step {state : State} {request : Request} {writes : List Write} :
      Reachable state → request.prepare externals state = .ok writes →
      Reachable (state.applyAll writes)

/-! ### Runs -/

/-- The state after some requests, when the store accepts them all. -/
def run (requests : List Request) : Except Error State :=
  requests.foldlM (fun state request => do
    let writes ← request.prepare externals state
    return state.applyAll writes) State.empty

variable {externals}

theorem reachable_foldlM {requests : List Request} {state state' : State}
    (h : Reachable externals state)
    (hfold : requests.foldlM (fun state request => do
      let writes ← request.prepare externals state
      return state.applyAll writes) state = .ok state') : Reachable externals state' := by
  induction requests generalizing state with
  | nil =>
    obtain rfl := Except.ok.inj hfold
    exact h
  | cons request rest ih =>
    simp only [List.foldlM_cons, bind_eq_ok] at hfold
    obtain ⟨middle, ⟨writes, hprepare, hmiddle⟩, hfold⟩ := hfold
    obtain rfl := Except.ok.inj hmiddle
    exact ih (h.step hprepare) hfold

theorem reachable_of_run {requests : List Request} {state : State}
    (h : run externals requests = .ok state) : Reachable externals state :=
  reachable_foldlM .empty h

def digestOf (n : Nat) : String := String.ofList (List.replicate 64 (Nat.digitChar (n % 16)))

theorem isHex_digestOf (n : Nat) : IsHex (digestOf n) := by
  have hall : ∀ i : Fin 16, IsHex (String.ofList (List.replicate 64 (Nat.digitChar i))) := by
    decide +kernel
  exact hall ⟨n % 16, Nat.mod_lt _ (by decide)⟩

theorem digestOf_ne (n : Nat) : digestOf n ≠ digestOf (n + 8) := by
  have hall : ∀ i : Fin 16, String.ofList (List.replicate 64 (Nat.digitChar i)) ≠
      String.ofList (List.replicate 64 (Nat.digitChar ((i + 8) % 16))) := by decide +kernel
  have hmod : (n + 8) % 16 = (n % 16 + 8) % 16 := by omega
  rw [digestOf, digestOf, hmod]
  exact hall ⟨n % 16, Nat.mod_lt _ (by decide)⟩

section Tree

open AuthenticatedLog

def countDigest (n : Nat) : Digest :=
  ⟨List.replicate 32 ⟨17 * (n % 16), by omega⟩, List.length_replicate ..⟩

/-- A hash under which the root of a tree is the number of its leaves. -/
def countLeaves : List (Fin 256) → Digest
  | [] => countDigest 0
  | tag :: rest => if tag = 0 then countDigest 1 else countDigest (rest.getD 0 0 + rest.getD 32 0)

theorem nodeHash_countDigest (m n : Nat) :
    nodeHash countLeaves (countDigest m) (countDigest n) = countDigest (m + n) := by
  have hmod : (17 * (m % 16) + 17 * (n % 16)) % 16 = (m + n) % 16 := by omega
  simp [nodeHash, countLeaves, countDigest, hmod]

theorem mth_countLeaves (inputs : List (List (Fin 256))) :
    mth countLeaves inputs = countDigest inputs.length := by
  suffices h : ∀ leaves : List Digest, (∀ leaf ∈ leaves, leaf = countDigest 1) →
      Merkle.root (countDigest 0) (nodeHash countLeaves) leaves = countDigest leaves.length by
    refine (h (inputs.map (leafHash countLeaves)) ?_).trans (by rw [List.length_map])
    simp [leafHash, countLeaves]
  intro leaves
  induction hn : leaves.length using Nat.strong_induction_on generalizing leaves with
  | _ n ih =>
    intro hleaves
    match leaves with
    | [] => simp [← hn]
    | [leaf] => simpa [← hn] using hleaves
    | first :: second :: rest =>
      have hlt := Merkle.split_lt (n := n) (by simp [← hn])
      have hpos := Merkle.split_pos n
      rw [Merkle.root_split (by simp), hn,
        ih _ hlt _ (by rw [List.length_take]; omega) fun leaf h => hleaves leaf (List.mem_of_mem_take h),
        ih (n - Merkle.split n) (by omega) _ (by rw [List.length_drop, hn])
          fun leaf h => hleaves leaf (List.mem_of_mem_drop h),
        nodeHash_countDigest]
      congr 1
      omega

theorem hex_countDigest (n : Nat) : hex (countDigest n) = digestOf n := by
  have hall : ∀ i : Fin 16, hex (countDigest i) = digestOf i := by decide +kernel
  have hcount : countDigest n = countDigest (n % 16) := by simp [countDigest]
  have hdigest : digestOf n = digestOf (n % 16) := by simp [digestOf]
  rw [hcount, hdigest]
  exact hall ⟨n % 16, Nat.mod_lt _ (by decide)⟩

end Tree

/-- The text of this float, 7.038531e-26, is not read back. -/
def unreadable : F32 := ⟨0x15AE43FD, by decide⟩

def doubleRounded (value : F32) : F32 := if value = unreadable then ⟨0x15AE43FE, by decide⟩ else value

def loses : RuntimeMutation → Bool
  | .claim claim => claim.stored.confidence.map doubleRounded ≠ claim.confidence
  | .vector vector => vector.value.map doubleRounded ≠ vector.value
  | _ => false

theorem reread_of_not_loses {mutation : RuntimeMutation} (h : loses mutation = false) :
    mutation.reread doubleRounded = mutation := by
  cases mutation <;> simp_all [loses, RuntimeMutation.reread]

theorem loses_reread (mutation : RuntimeMutation) :
    loses (mutation.reread doubleRounded) = false := by
  have hagain : ∀ value, doubleRounded (doubleRounded value) = doubleRounded value := by
    intro value
    unfold doubleRounded unreadable
    split <;> simp_all
  have hfinite : ∀ value, F32.isFinite value → F32.isFinite (doubleRounded value) := by
    intro value hvalue
    unfold doubleRounded
    split
    · decide
    · exact hvalue
  cases mutation with
  | claim claim =>
    cases hconfidence : claim.confidence with
    | none => simp [loses, RuntimeMutation.reread, Claim.stored, hconfidence]
    | some value =>
      by_cases hvalue : F32.isFinite value <;>
        simp_all [loses, RuntimeMutation.reread, Claim.stored, Option.filter]
  | vector vector =>
    cases hvalue : vector.value <;>
      simp [loses, RuntimeMutation.reread, VectorValue.map, hvalue, hagain, Function.comp_def]
  | _ => rfl

def changeDigest (change : RuntimeChange) : String :=
  digestOf (if loses change.mutation then change.cursor + 8 else change.cursor)

theorem changeDigest_reread (change : RuntimeChange)
    (h : changeDigest (change.reread doubleRounded) = changeDigest change) :
    change.reread doubleRounded = change := by
  cases hloses : loses change.mutation with
  | false => rw [RuntimeChange.reread, reread_of_not_loses hloses]
  | true =>
    simp only [changeDigest, RuntimeChange.reread, loses_reread, hloses] at h
    exact absurd h (digestOf_ne _)

/-- Externals under which short runs can be evaluated: a digest numbers what it
digests, there are no indexes and no limits. -/
def Externals.numbered : Externals where
  floats := { unitL2 := fun _ => true, finiteDecimal := fun _ => true }
  digests :=
    { commit := fun commit => digestOf commit.expectedCursor
      change := changeDigest
      stamp := fun stamp => digestOf stamp.commitCursor
      audit := fun audit => digestOf (audit.outcomeCursor.getD 0)
      root := fun leaves => digestOf leaves.length
      sha256 := countLeaves
      bytes := fun change => [Fin.ofNat 256 change.cursor]
      rounded := doubleRounded
      commit_hex := fun _ => isHex_digestOf _
      change_hex := fun _ => isHex_digestOf _
      stamp_hex := fun _ => isHex_digestOf _
      audit_hex := fun _ => isHex_digestOf _
      root_hex := fun _ => isHex_digestOf _
      root_eq := fun leaves => by rw [mth_countLeaves, hex_countDigest, List.length_map]
      change_reread := changeDigest_reread }
  payloadDigest := fun _ => digestOf 0
  journalDigest := fun entry => digestOf entry.sequence
  keysExamined := fun _ _ _ => 1
  indexEffects := fun _ _ _ _ _ => .ok []
  indexBindings := fun _ _ _ _ => .ok []
  withinLimits := fun _ _ => .ok ()

theorem tenant_valid : checkText "runtime scope" "tenant" = .ok () := by decide

def tenant : ScopeId := ⟨"tenant", tenant_valid⟩

def proposal (cursor : Nat) (mutations : List RuntimeMutation) : RuntimeCommit :=
  { scope := tenant, at_ := 1, actor := "writer", expectedCursor := cursor, mutations }

def Request.plain (proposed : RuntimeCommit) : Request := .commit proposed none none

/-- A claim of one start and one transaction time. -/
def boilsAt (object : String) : Claim :=
  { subject := ⟨"water", by decide⟩, predicate := ⟨"boils-at", by decide⟩, object
    validFrom := 1, validTo := none, txTime := 1
    producer := { actor := "writer", onBehalfOf := none, session := none }, confidence := none
    supersedes := none, signature := none, tier := .primary, promotionState := .unpromoted }

/-- A claim whose confidence is not read back, and another one after it. -/
def unreadableHead : List Request :=
  [.plain (proposal 0 [.claim { boilsAt "99" with confidence := some unreadable }]),
    .plain (proposal 1 [.claim (boilsAt "100")])]

end Rrflow.Store

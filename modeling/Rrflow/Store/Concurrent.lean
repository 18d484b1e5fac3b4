import Rrflow.Lib.FirstCommitter
import Rrflow.Store.Invariant

/-!
Requests of any number of callers over a snapshot-isolated store.

Every request is one transaction of the storage engine. The places are the keys that
the engine compares when a transaction commits. Each group of keyspaces that belongs
together is written with one watermark: the runtime with its cursor, the claim log with
its own, the control journal with its sequence, a catalogue with its revision.
-/

namespace Rrflow.Store

open Kernel Checks FirstCommitter List RuntimeMutation

/-! ### Places -/

/-- The key that a write goes to. -/
inductive Place
  | change (cursor : Nat)
  | schema (scope : ScopeId)
  | schemaVersion (key : SchemaVersionKey)
  | claimVersion (key : ClaimVersionKey)
  | version (space : VersionSpace) (key : VersionKey)
  | record (key : IdentityKey)
  | relation (key : IdentityKey)
  | edge (direction : Direction) (key : EdgeKey)
  | edgeVersion (direction : Direction) (key : EdgeVersionKey)
  | cursor
  | lastDigest
  | accumulator
  | audit (commitId : String)
  | lastAudit
  | commit (commitId : String)
  | claim (key : ClaimKey)
  | claimSequence (sequence : Nat)
  | watermark
  | receipt (key : String)
  | controlRecord (key : String)
  | journal (sequence : Nat)
  | journalSequence
  | journalDigest
  | catalogRevision (scope : ScopeId)
  | index (key : String)

def LogWrite.place : LogWrite → Place
  | .change cursor _ => .change cursor
  | .schema scope _ => .schema scope
  | .schemaVersion key _ => .schemaVersion key
  | .claimVersion key _ => .claimVersion key
  | .version space key _ => .version space key
  | .record key _ => .record key
  | .relation key _ => .relation key
  | .edge direction key _ => .edge direction key
  | .edgeVersion direction key _ => .edgeVersion direction key

def ClaimWrite.place : ClaimWrite → Place
  | .claim key _ => .claim key
  | .sequence n _ => .claimSequence n
  | .watermark _ => .watermark
  | .receipt key _ => .receipt key

def ControlWrite.place : ControlWrite → Place
  | .record key _ => .controlRecord key
  | .journal n _ => .journal n
  | .sequence _ => .journalSequence
  | .digest _ => .journalDigest
  | .catalogRevision scope _ => .catalogRevision scope
  | .index key _ => .index key

def Write.place : Write → Place
  | .logged write => write.place
  | .cursor _ => .cursor
  | .lastDigest _ => .lastDigest
  | .accumulator _ => .accumulator
  | .audit commitId _ => .audit commitId
  | .lastAudit _ => .lastAudit
  | .commit commitId _ => .commit commitId
  | .claim write => write.place
  | .control write => write.place

def system (externals : Externals) : System State Write Place Request where
  initial := .empty
  apply := State.apply
  place := Write.place
  prepares request state writes := request.prepare externals state = .ok writes

abbrev History := List (Request × List Write)

variable {externals : Externals}

abbrev stateOf (externals : Externals) (history : History) : State :=
  (system externals).stateOf history

theorem stateOf_append_singleton (history : History) (request : Request) (writes : List Write) :
    stateOf externals (history ++ [(request, writes)]) =
      (stateOf externals history).applyAll writes :=
  System.stateOf_concat ..

/-! ### The parts of a list of writes -/

def Write.control? : Write → Option ControlWrite
  | .control write => some write
  | _ => none

def Write.claim? : Write → Option ClaimWrite
  | .claim write => some write
  | _ => none

theorem State.applyAll_control (state : State) (writes : List Write) :
    (state.applyAll writes).control = state.control.applyAll (writes.filterMap Write.control?) := by
  induction writes generalizing state with
  | nil => rfl
  | cons write rest ih =>
    rw [State.applyAll_cons, ih]
    cases write <;> rfl

@[simp] theorem filterMap_control?_control (writes : List ControlWrite) :
    (writes.map Write.control).filterMap Write.control? = writes := by
  rw [filterMap_map]
  exact filterMap_some

@[simp] theorem filterMap_control?_claim (writes : List ClaimWrite) :
    (writes.map Write.claim).filterMap Write.control? = [] := by
  rw [filterMap_map]
  exact filterMap_eq_nil_iff.mpr fun _ _ => rfl

@[simp] theorem filterMap_control?_logged (writes : List LogWrite) :
    (writes.map Write.logged).filterMap Write.control? = [] := by
  rw [filterMap_map]
  exact filterMap_eq_nil_iff.mpr fun _ _ => rfl

theorem ControlSpaces.applyAll_append (spaces : ControlSpaces) (writes more : List ControlWrite) :
    spaces.applyAll (writes ++ more) = (spaces.applyAll writes).applyAll more :=
  foldl_append ..

theorem Plan.control_foldlM {state : State} {commit : RuntimeCommit}
    {mutations : List RuntimeMutation} {plan plan' : Plan}
    (h : mutations.foldlM (Plan.add externals state commit) plan = .ok plan')
    (hcontrol : plan.writes.filterMap Write.control? = []) :
    plan'.writes.filterMap Write.control? = [] := by
  induction mutations generalizing plan with
  | nil =>
    obtain rfl := Except.ok.inj h
    exact hcontrol
  | cons mutation rest ih =>
    rw [foldlM_cons, bind_eq_ok] at h
    obtain ⟨middle, hadd, hrest⟩ := h
    obtain ⟨-, sequence, claimWrites, -, hmiddle⟩ := Plan.add_eq_ok hadd
    refine ih hrest ?_
    rw [hmiddle]
    simp only [filterMap_append, hcontrol, filterMap_control?_claim,
      filterMap_control?_logged, append_nil]

/-- What a commit writes into the control keyspaces. -/
theorem prepareSemanticCommit_control {state : State} {commit : RuntimeCommit}
    {read : Option ReadStamp} {archivedAudit : Option AuditEnvelope}
    {outcome : RuntimeCommitOutcome} {writes : List Write}
    (h : prepareSemanticCommit externals state commit read archivedAudit = .ok (outcome, writes)) :
    ∃ indexWrites : List IndexWrite, writes.filterMap Write.control? =
      indexWrites.map (fun write => .index write.1 write.2) ++
        [.catalogRevision commit.scope (state.catalogRevision commit.scope)] := by
  simp only [prepareSemanticCommit, bind_eq_ok, ensure_eq_ok, lift_eq_ok] at h
  obtain ⟨_, -, _, -, _, -, _, -, accumulator, -, _, -, schema, -, _, -, plan, hplan, indexWrites,
    -, audit, -, _, -, firstCursor, -, firstClaim, -, _, -, h⟩ := h
  obtain ⟨-, rfl⟩ := Prod.mk.inj (Except.ok.inj h)
  refine ⟨indexWrites, ?_⟩
  rw [filterMap_append, filterMap_append, Plan.control_foldlM hplan rfl, map_index_control,
    filterMap_control?_control, nil_append, closingWrites]
  split <;> rfl

end Rrflow.Store

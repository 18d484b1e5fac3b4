import Rrflow.Store.SemanticCommit

/-!
Control records and their journal.

A transition replaces a control record if it still has the expected value, and adds
an entry to a hash-chained journal. Transitions of a catalogue also raise the
catalogue revision of a scope, which every semantic commit of the scope writes back.
-/

namespace Rrflow.Store

open Kernel Checks

def controlKeyStart : String := "server/state/"

def isControlKeyChar (c : Char) : Bool :=
  c.isAlphanum || c == '/' || c == '-' || c == '_' || c == '.' || c == ':'

def validateControlKey (key : String) : Except Error Unit :=
  ensure (controlKeyStart.toList.isPrefixOf key.toList ∧ key.utf8ByteSize ≤ 256 ∧
      key.toList.all isControlKeyChar)
    (.substrate "invalid server control-state key")

/-- A label of a transition: short, not empty and ASCII. -/
def validateControlLabel (name value : String) : Except Error Unit :=
  ensure (value ≠ "" ∧ value.utf8ByteSize ≤ 256 ∧ value.toList.all fun c => c.toNat < 128)
    (.substrate ("invalid control transition " ++ name))

def maxControlBytes : Nat := 1024 * 1024

def ControlTransition.validate (transition : ControlTransition) : Except Error Unit := do
  validateControlKey transition.key
  validateControlLabel "actor" transition.actor
  validateControlLabel "action" transition.action
  validateControlLabel "request_id" transition.requestId
  validateControlLabel "operation_id" transition.operationId
  ensure (transition.at_ ≠ 0) (.substrate "control transition time must be non-zero")
  ensure ((transition.expected.all fun value => value.length ≤ maxControlBytes) ∧
      transition.replacement.all fun value => value.length ≤ maxControlBytes)
    (.substrate "control state exceeds one MiB")

def maxControlBatchTransitions : Nat := 64

def validateControlBatch (transitions : List ControlTransition) : Except Error Unit := do
  ensure (transitions ≠ [] ∧ transitions.length ≤ maxControlBatchTransitions)
    (.substrate "control batch size must be in 1..=64")
  let _ ← transitions.foldlM (fun keys transition => do
    transition.validate
    ensure (transition.key ∉ keys)
      (.substrate "control batch cannot address one key more than once")
    return transition.key :: keys) ([] : List String)

variable (externals : Externals)

def ControlJournalEntry.committed (sequence : Nat) (transition : ControlTransition)
    (previousDigest : Option String) : ControlJournalEntry :=
  let entry : ControlJournalEntry :=
    { sequence, key := transition.key
      beforeSha256 := transition.expected.map externals.payloadDigest
      replacement := transition.replacement, at_ := transition.at_, actor := transition.actor
      action := transition.action, requestId := transition.requestId
      operationId := transition.operationId, previousDigest, digest := "" }
  { entry with digest := externals.journalDigest entry }

def ControlJournalEntry.verify (entry : ControlJournalEntry) : Bool :=
  externals.journalDigest { entry with digest := "" } = entry.digest

variable (state : ControlSpaces)

/-- The end of the journal is what its watermarks say. -/
def verifyControlTail : Except Error Unit :=
  let entry := if state.sequence = 0 then none else state.journal.find? state.sequence
  match state.sequence, state.digest, entry with
  | 0, none, none => .ok ()
  | sequence, some advertised, some entry =>
    ensure (entry.sequence = sequence ∧ entry.verify externals ∧ entry.digest = advertised)
      (.substrate "control journal tail is missing, corrupt, or inconsistent")
  | _, _, _ => .error (.substrate "control journal tail is missing, corrupt, or inconsistent")

/-- The record still has the value that the transition expects. -/
def checkExpected (transition : ControlTransition) : Except Error Unit :=
  ensure (state.records.find? transition.key = transition.expected)
    (.controlConflict transition.key)

def transitionWrites (transition : ControlTransition) (entry : ControlJournalEntry) :
    List ControlWrite :=
  [.record transition.key transition.replacement, .journal entry.sequence entry]

/-- The watermarks of the journal after an entry. -/
def journalWrites (entry : ControlJournalEntry) : List ControlWrite :=
  [.sequence entry.sequence, .digest entry.digest]

/-- The index bindings of a catalogue, against the schema it was made for. -/
def bindingWrites (state : State) (scope : ScopeId) (revision : Nat) :
    Option (Nat × List IndexCommitBindingDefinition) → Except Error (List IndexWrite)
  | none => .ok []
  | some (expectedRevision, definitions) =>
    match state.schema? scope with
    | none => .error (.runtimeSchemaMissing scope.val)
    | some schema => do
        ensure (schema.revision = expectedRevision)
          (.runtimeSchemaConflict expectedRevision schema.revision)
        externals.indexBindings state scope revision definitions

/-- The next catalogue revision of a scope, with its index bindings. -/
def catalogWrites (state : State) (definitions : Option (Nat × List IndexCommitBindingDefinition)) :
    Option ScopeId → Except Error (List ControlWrite)
  | none => .ok []
  | some scope => do
      let revision ← next (state.catalogRevision scope)
      let bindings ← bindingWrites externals state scope revision definitions
      return bindings.map (fun write => .index write.1 write.2) ++ [.catalogRevision scope revision]

/-- One transition, of the catalogue of a scope if one is given, with the index
bindings of that catalogue if it is an index catalogue. -/
def commitOne (state : State) (transition : ControlTransition) (catalogScope : Option ScopeId)
    (definitions : Option (Nat × List IndexCommitBindingDefinition)) :
    Except Error (ControlJournalEntry × List ControlWrite) := do
  transition.validate
  checkExpected state.control transition
  verifyControlTail externals state.control
  let sequence ← next state.control.sequence
  let catalog ← catalogWrites externals state definitions catalogScope
  let entry := ControlJournalEntry.committed externals sequence transition state.control.digest
  return (entry, transitionWrites transition entry ++ journalWrites entry ++ catalog)

def batchEntries (sequence : Nat) (previousDigest : Option String) :
    List ControlTransition → List ControlJournalEntry
  | [] => []
  | transition :: rest =>
    let entry := ControlJournalEntry.committed externals (sequence + 1) transition previousDigest
    entry :: batchEntries (sequence + 1) (some entry.digest) rest

def prepareControlBatch (transitions : List ControlTransition) :
    Except Error (List ControlJournalEntry × List ControlWrite) := do
  validateControlBatch transitions
  transitions.forM (checkExpected state)
  verifyControlTail externals state
  ensure (state.sequence + transitions.length ≤ u64Max) .sequenceOverflow
  let entries := batchEntries externals state.sequence state.digest transitions
  return (entries, ((transitions.zip entries).flatMap fun pair => transitionWrites pair.1 pair.2) ++
    (entries.getLast?.toList.flatMap journalWrites))

/-- The entries of a page carry on from the digest before them. -/
def verifyControlPage (after : Nat) (anchorDigest : Option String)
    (entries : List ControlJournalEntry) : Except Error Unit :=
  match entries with
  | [] => .ok ()
  | entry :: rest => do
      let expected ← next after
      ensure (entry.sequence = expected ∧ entry.verify externals ∧
          entry.previousDigest = anchorDigest)
        (.substrate "control journal page is missing, reordered, or corrupt")
      verifyControlPage expected (some entry.digest) rest

/-- The digest of the entry that a page starts behind. -/
def journalAnchor (after : Nat) : Except Error (Option String) :=
  if after = 0 then .ok none
  else
    match state.journal.find? after with
    | none => .error (.substrate "control journal anchor is missing")
    | some entry => do
        ensure (entry.verify externals ∧ entry.sequence = after)
          (.substrate "control journal anchor is corrupt")
        return some entry.digest

def pageEntry (row : Nat × ControlJournalEntry) : Except Error ControlJournalEntry := do
  ensure (row.1 = row.2.sequence) (.substrate "control journal key does not match its entry")
  return row.2

/-- The entries of the journal after a sequence number, at most `limit` of them. -/
def journalSince (after limit : Nat) : Except Error (List ControlJournalEntry) := do
  ensure (limit ≠ 0) (.substrate "control journal limit must be non-zero")
  if state.sequence < after then return []
  else do
    let anchor ← journalAnchor externals state after
    if after = state.sequence then return []
    else do
      let count := min limit (state.sequence - after)
      let entries ← ((state.journal.toList.filter fun row => after + 1 ≤ row.1).take count).mapM
        pageEntry
      ensure (entries.length = count)
        (.substrate "control journal ended before its captured watermark")
      verifyControlPage externals after anchor entries
      return entries

end Rrflow.Store

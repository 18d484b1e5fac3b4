import Rrflow.Lsm.TransactionSpec

/-!
Runs of a database: sequences of calls from its creation.

`Call` is the interface of one open database. A trace records every call with
the state it was made in and its outcome. From a trace alone one can read the
history of committed batches and the snapshots that every pruning compaction was
told to keep. `call_effect` says what one call does in these terms.
-/

namespace Rrflow.Lsm

open Eff Latest

variable {world' world : World}

/-- A call on an open database. `commit` without a list is `commit_transaction`,
with one it is `commit_transaction_with_protected_snapshots`. -/
inductive Call
  | write (batch : WriteBatch) (durability : Durability)
      (failure : Option (WriteBoundary × FailureMode))
  | begin
  | stage (id : Nat) (key : Bytes) (value : Option Bytes)
  | rollback (id : Nat)
  | commit (id : Nat) (durability : Durability) (failure : Option (WriteBoundary × FailureMode))
      (protectedSnapshots : Option (List Nat))
  | flushMemtable (createdAt : Nat) (failure : Option (FlushBoundary × FailureMode))
  | compact (protectedSnapshots : List Nat) (createdAt : Nat)
      (failure : Option (CompactionBoundary × FailureMode))
  | compactIfNeeded (createdAt : Nat)
  | maintenanceStep
  | maintenanceStepWithProtectedSnapshots (protectedSnapshots : List Nat)
  | garbageCollect
  | checkpoint (name : Bytes) (createdAt : Nat)
  | releaseCheckpoint (name : Bytes)
  | exportSnapshotBundle (createdAt : Nat)

inductive Reply
  | done
  | handle (id : Nat)
  | receipt (receipt : AppendReceipt)
  | committed (commit : TransactionCommit)
  | manifest (manifest : Option Manifest)
  | compaction (outcome : Option CompactionOutcome)
  | progress (progress : Bool)
  | checkpoint (checkpoint : Checkpoint)
  | bundle (bundle : SnapshotBundle)

def Call.run (codec : Codec) : Call → Run Reply
  | .write batch durability failure => do
      return .receipt (← writeInner codec batch durability failure none)
  | .begin => do return .handle (← beginTransaction)
  | .stage id key value => do
      Lsm.stage id key value
      return .done
  | .rollback id => do
      releaseTransaction id
      return .done
  | .commit id durability failure protectedSnapshots => do
      return .committed (← commitTransaction codec id durability failure protectedSnapshots)
  | .flushMemtable createdAt failure => do
      return .manifest (← flushMemtableInner codec createdAt failure)
  | .compact protectedSnapshots createdAt failure => do
      return .compaction (← compactInner codec protectedSnapshots createdAt failure true false)
  | .compactIfNeeded createdAt => do return .compaction (← Lsm.compactIfNeeded codec createdAt)
  | .maintenanceStep => do return .progress (← Lsm.maintenanceStep codec)
  | .maintenanceStepWithProtectedSnapshots protectedSnapshots => do
      return .progress (← Lsm.maintenanceStepWithProtectedSnapshots codec protectedSnapshots)
  | .garbageCollect => do return .progress (← Lsm.garbageCollect codec)
  | .checkpoint name createdAt => do
      return .checkpoint (← Lsm.checkpoint codec name createdAt)
  | .releaseCheckpoint name => do return .progress (← Lsm.releaseCheckpoint name)
  | .exportSnapshotBundle createdAt => do
      return .bundle (← Lsm.exportSnapshotBundle codec createdAt)

structure Event where
  call : Call
  before : World
  outcome : Except Error Reply

def Call.operations (world : World) : Call → List Mutation
  | .write batch _ _ => batch.operations
  | .commit id _ _ _ => (world.transactions.find? id).elim [] Transaction.takeMutations
  | _ => []

def Event.operations (event : Event) : List Mutation := event.call.operations event.before

/-- The mutations of the batch that a call committed, with their sequences. -/
def Event.committed (event : Event) : List Entry :=
  match event.call, event.outcome with
  | .write batch _ _, .ok (.receipt receipt) =>
    stampOperations receipt.firstSequence batch.operations
  | .commit id _ _ _, .ok (.committed commit) =>
    (event.before.transactions.find? id).elim [] commit.entries
  | _, _ => []

/-- The list a history-pruning compaction was given, when the call made one. A
commit with a list is counted, whether it compacted or not. -/
def Event.pruned (event : Event) : Option (List Nat) :=
  match event.call, event.outcome with
  | .compact _ _ _, .ok (.compaction none) => none
  | .compact protectedSnapshots _ _, _ => some protectedSnapshots
  | .maintenanceStepWithProtectedSnapshots protectedSnapshots, .ok (.progress progress) =>
    if progress && !event.before.db.reclamationPending then some protectedSnapshots else none
  | .maintenanceStepWithProtectedSnapshots protectedSnapshots, _ => some protectedSnapshots
  | .commit _ _ _ protectedSnapshots, _ => protectedSnapshots
  | _, _ => none

/-- A run from creation: the calls made and the state reached. -/
inductive Trace (codec : Codec) : List Event → World → Prop
  | create {options : DatabaseOptions} {format : Option Nat} {db : Database} {disk : Disk}
      (readings : List Nat) (denials : List (Option (Nat × Nat × Nat))) :
      create codec options format = .ok (db, disk) →
      Trace codec [] { db, disk, transactions := ∅, readings, denials }
  | step {events : List Event} {world world' : World} {call : Call} {outcome : Except Error Reply} :
      Trace codec events world → call.run codec world = (outcome, world') →
      Trace codec (events ++ [⟨call, world, outcome⟩]) world'

/-- Makes calls one after another, whatever their outcomes. -/
def runCalls (codec : Codec) : World → List Call → List Event × World
  | world, [] => ([], world)
  | world, call :: rest =>
    let step := call.run codec world
    let run := runCalls codec step.2 rest
    (⟨call, world, step.1⟩ :: run.1, run.2)

theorem Trace.runCalls {codec : Codec} {events : List Event} (h : Trace codec events world)
    (calls : List Call) :
    Trace codec (events ++ (runCalls codec world calls).1) (runCalls codec world calls).2 := by
  induction calls generalizing events world with
  | nil =>
    rw [Lsm.runCalls, List.append_nil]
    exact h
  | cons call rest ih =>
    have hstep := Trace.step h (Prod.mk.eta (p := call.run codec world)).symm
    simpa [Lsm.runCalls] using ih hstep

def history (events : List Event) : List Entry := events.flatMap Event.committed

/-- `s` was the head before some call, and every history-pruning compaction after
that call was told to keep it. -/
def Shielded (events : List Event) (s : Nat) : Prop :=
  ∃ past event future, events = past ++ event :: future ∧ event.before.db.snapshot = s ∧
    ∀ later ∈ future, ∀ snapshots, later.pruned = some snapshots → s ∈ snapshots

namespace Ideal

def firstManifest : Manifest :=
  { applicationFormat := none, generation := 1, parent := none, createdAt := 0
    durableSequence := 0, walStartSequence := 1, segments := [] }

/-- A new database with default options under the ideal codec. -/
def start : World :=
  { db :=
      { options := {}, manifest := firstManifest, walStart := 1, walNextSequence := 1
        walPayloadBytes := 0, memtable := .atSequence 0, segments := [], pointIndex := .new []
        reclamationPending := true, writerRequiresReopen := none, transactionSnapshots := {}
        activeReadViews := [], owner := 0 }
    disk :=
      { wals := SortedMap.empty.insert 1 [], segments := ∅
        manifests := SortedMap.empty.insert (firstManifest.digest codec) firstManifest
        current := some ⟨firstManifest.digest codec, 1⟩, checkpoints := ∅ }
    transactions := ∅, readings := [], denials := [] }

theorem trace_start : Trace codec [] start :=
  Trace.create [] [] (rfl : create codec {} none = .ok (start.db, start.disk))

def putOne : WriteBatch := ⟨[.put [1] [7]], 26, by decide⟩

def deleteOne : WriteBatch := ⟨[.delete [1]], 25, by decide⟩

end Ideal

/-! ### One call -/

variable {codec : Codec}

/-- What an event does: its effect on the store, then a change of the registries.
A call that succeeds commits all its mutations, and one that fails commits none,
though it may leave them in the log. -/
structure Stepped (codec : Codec) (event : Event) (world' : World) : Prop where
  inv : Inv codec world'
  effect : ∃ middle committed doubt,
    Effect codec event.pruned event.before committed doubt middle ∧ Registers middle world' ∧
    event.committed = stampOperations (event.before.db.snapshot + 1) committed ∧
    (event.outcome.isOk → committed = event.operations ∧ doubt = []) ∧
    (doubt = [] ∨ doubt = event.operations)
  pins : ∀ s ∈ world'.db.transactionSnapshots.pins,
    s ∈ event.before.db.transactionSnapshots.pins ∨ s = event.before.db.snapshot

theorem Effect.pins {protectedSnapshots : Option (List Nat)} {committed doubt : List Mutation}
    (h : Effect codec protectedSnapshots world committed doubt world') :
    world'.db.transactionSnapshots = world.db.transactionSnapshots := by
  cases h with
  | upkeep _ hmaintains => exact hmaintains.snapshots
  | wrote _ _ hmaintains hwrote => rw [hwrote.snapshots, hmaintains.snapshots]
  | doubt _ _ hmaintains hdoubt => rw [hdoubt.snapshots, hmaintains.snapshots]

variable {event : Event}

theorem stepped_of_committed {middle : World} (hinv : Inv codec world')
    (h : Effect codec event.pruned event.before event.operations [] middle)
    (hregisters : Registers middle world') (hcommitted : event.committed =
      stampOperations (event.before.db.snapshot + 1) event.operations)
    (hpins : ∀ s ∈ world'.db.transactionSnapshots.pins,
      s ∈ middle.db.transactionSnapshots.pins ∨ s = event.before.db.snapshot) :
    Stepped codec event world' where
  inv := hinv
  effect := ⟨middle, event.operations, [], h, hregisters, hcommitted, fun _ => ⟨rfl, rfl⟩,
    Or.inl rfl⟩
  pins := by rwa [h.pins] at hpins

theorem stepped_of_error {middle : World} {doubt : List Mutation} {e : Error}
    (hinv : Inv codec world') (herror : event.outcome = .error e)
    (h : Effect codec event.pruned event.before [] doubt middle)
    (hdoubt : doubt = [] ∨ doubt = event.operations) (hregisters : Registers middle world')
    (hpins : ∀ s ∈ world'.db.transactionSnapshots.pins, s ∈ middle.db.transactionSnapshots.pins) :
    Stepped codec event world' where
  inv := hinv
  effect := by
    refine ⟨middle, [], doubt, h, hregisters, ?_, ?_, hdoubt⟩
    · unfold Event.committed
      rw [herror]
      split <;> simp_all [stampOperations]
    · rw [herror]
      simp [Except.isOk, Except.toBool]
  pins := by
    rw [h.pins] at hpins
    exact fun s hs => Or.inl (hpins s hs)

theorem stepped_of_maintains (hinv : Inv codec world') (hcommitted : event.committed = [])
    (hoperations : event.operations = [])
    (h : Maintains (prunesHistory event.pruned) (sparesSnapshot event.pruned) event.before world') :
    Stepped codec event world' := by
  refine stepped_of_committed hinv ?_ (Registers.refl world') ?_ fun s hs => Or.inl hs
  · rw [hoperations]
    exact .upkeep hinv h
  · rw [hcommitted, hoperations]
    rfl

theorem stepped_of_registers (hinv : Inv codec event.before)
    (hcommitted : event.committed = []) (hoperations : event.operations = [])
    (hinv' : Inv codec world') (hregisters : Registers event.before world')
    (hpins : ∀ s ∈ world'.db.transactionSnapshots.pins,
      s ∈ event.before.db.transactionSnapshots.pins ∨ s = event.before.db.snapshot) :
    Stepped codec event world' := by
  refine stepped_of_committed hinv' ?_ hregisters ?_ hpins
  · rw [hoperations]
    exact .upkeep hinv (Std.Refl.refl _)
  · rw [hcommitted, hoperations]
    rfl

theorem stepped_of_retains (hinv : Inv codec event.before) (hcommitted : event.committed = [])
    (hoperations : event.operations = []) (hretains : Retains event.before world') :
    Stepped codec event world' := by
  refine stepped_of_registers hinv hcommitted hoperations (hinv.of_retains hretains)
    hretains.registers ?_
  rw [hretains.db]
  exact fun s hs => Or.inl hs

theorem upkeep_exportSnapshotBundle (createdAt : Nat) :
    Preserves (Upkeep codec false (fun _ => True)) (exportSnapshotBundle codec createdAt) := by
  have hread : ∀ segments, Preserves Silent (readSegments segments) := by
    refine fun segments => preserves_get.bind fun world => Preserves.foldlM (fun read d => ?_) _ _
    split
    · exact preserves_fail _
    · exact preserves_pure _
  refine (upkeep_flushMemtableInner createdAt none).bind fun _ => preserves_get.bind fun _ => ?_
  refine ((hread _).mono fun _ _ => Silent.upkeep).bind fun _ => ?_
  exact (preserves_ofExcept _).bind fun _ => preserves_pure _

/-- A commit: the effect of its write, then the release of the transaction. -/
theorem stepped_commit (hinv : Inv codec world) (id : Nat) (durability : Durability)
    (failure : Option (WriteBoundary × FailureMode)) (protectedSnapshots : Option (List Nat)) :
    wp (commitTransaction codec id durability failure protectedSnapshots)
      (fun commit => Stepped codec
        ⟨.commit id durability failure protectedSnapshots, world, .ok (.committed commit)⟩)
      (fun e => Stepped codec
        ⟨.commit id durability failure protectedSnapshots, world, .error e⟩) world := by
  refine wp_commitTransaction ?_ fun transaction hfind => ?_
  · exact fun _ e => stepped_of_error hinv rfl (.upkeep hinv (Std.Refl.refl world)) (Or.inl rfl)
      (Registers.refl world) fun s hs => hs
  · have hoperations : ∀ outcome, (⟨.commit id durability failure protectedSnapshots, world,
        outcome⟩ : Event).operations = transaction.takeMutations := by
      intro outcome
      rw [Event.operations, Call.operations, hfind]
      rfl
    refine wp_mono (effect_commitTransactionInner hinv transaction durability failure
      protectedSnapshots) ?_ ?_
    · rintro commit middle ⟨-, -, hentries, heffect⟩
      obtain ⟨hinv', hregisters, hpins⟩ := releaseTransaction_spec heffect.inv id
      refine stepped_of_committed hinv' ?_ hregisters ?_ fun s hs => Or.inl (hpins s hs)
      · rw [hoperations]
        exact heffect
      · rw [hoperations, Event.committed]
        dsimp only
        rw [hfind]
        exact hentries
    · rintro e middle ⟨doubt, hdoubt, heffect⟩
      obtain ⟨hinv', hregisters, hpins⟩ := releaseTransaction_spec heffect.inv id
      exact stepped_of_error hinv' rfl heffect (by rw [hoperations]; exact hdoubt) hregisters hpins

/-- Every call is a step, whatever its outcome. -/
theorem call_effect (hinv : Inv codec world) (call : Call) :
    wp (call.run codec) (fun reply => Stepped codec ⟨call, world, .ok reply⟩)
      (fun e => Stepped codec ⟨call, world, .error e⟩) world := by
  cases call with
  | write batch durability failure =>
    rw [Call.run]
    refine wp_then (effect_writeInner hinv batch durability failure none) ?_ ?_
    · rintro receipt world' ⟨hfirst, heffect⟩
      refine stepped_of_committed heffect.inv heffect (Registers.refl world') ?_
        fun s hs => Or.inl hs
      show stampOperations receipt.firstSequence batch.operations = _
      rw [hfirst]
      rfl
    · rintro e world' ⟨doubt, hdoubt, heffect⟩
      exact stepped_of_error heffect.inv rfl heffect hdoubt (Registers.refl world') fun s hs => hs
  | begin =>
    rw [Call.run]
    refine wp_then (wp_beginTransaction hinv) ?_ ?_
    · rintro id world' ⟨hinv', hregisters, hpins, -⟩
      refine stepped_of_registers hinv rfl rfl hinv' hregisters fun s hs => ?_
      rw [hpins] at hs
      exact (List.mem_cons.mp hs).symm
    · intro e world' hsame
      rw [hsame]
      exact stepped_of_maintains hinv rfl rfl (Std.Refl.refl world)
  | stage id key value =>
    rw [Call.run]
    refine wp_then (wp_stage hinv id key value) ?_ ?_
    · rintro _ world' ⟨hinv', hregisters, hpins⟩
      exact stepped_of_registers hinv rfl rfl hinv' hregisters fun s hs => Or.inl (hpins ▸ hs)
    · intro e world' hsame
      rw [hsame]
      exact stepped_of_maintains hinv rfl rfl (Std.Refl.refl world)
  | rollback id =>
    obtain ⟨hinv', hregisters, hpins⟩ := releaseTransaction_spec hinv id
    exact stepped_of_registers hinv rfl rfl hinv' hregisters fun s hs => Or.inl (hpins s hs)
  | commit id durability failure protectedSnapshots =>
    rw [Call.run, wp_bind]
    exact stepped_commit hinv id durability failure protectedSnapshots
  | flushMemtable createdAt failure =>
    rw [Call.run, wp_bind]
    refine (upkeep_flushMemtableInner createdAt failure).wp ?_ ?_
    · exact fun _ _ h => stepped_of_maintains (h hinv).1 rfl rfl (h hinv).2.weaken
    · exact fun _ _ h => stepped_of_maintains (h hinv).1 rfl rfl (h hinv).2.weaken
  | compact protectedSnapshots createdAt failure =>
    rw [Call.run]
    refine wp_then (wp_compactInner hinv protectedSnapshots createdAt failure true false) ?_ ?_
    · rintro outcome world' ⟨hinv', hnone, hmaintains⟩
      cases outcome with
      | none => exact stepped_of_maintains hinv' rfl rfl (hnone rfl).weaken
      | some outcome => exact stepped_of_maintains hinv' rfl rfl hmaintains
    · rintro e world' ⟨hinv', hmaintains⟩
      exact stepped_of_maintains hinv' rfl rfl hmaintains
  | compactIfNeeded createdAt =>
    rw [Call.run]
    refine wp_then (wp_compactInner hinv [] createdAt none false true) ?_ ?_
    · exact fun _ _ h => stepped_of_maintains h.1 rfl rfl h.2.2
    · exact fun _ _ h => stepped_of_maintains h.1 rfl rfl h.2
  | maintenanceStep =>
    rw [Call.run]
    refine wp_then (wp_maintenanceStepInner hinv [] true) ?_ ?_
    · exact fun _ _ h => stepped_of_maintains h.1 rfl rfl h.2.2
    · exact fun _ _ h => stepped_of_maintains h.1 rfl rfl h.2
  | maintenanceStepWithProtectedSnapshots protectedSnapshots =>
    rw [Call.run]
    refine wp_then (wp_maintenanceStepInner hinv protectedSnapshots false) ?_ ?_
    · rintro progress world' ⟨hinv', hnone, hmaintains⟩
      refine stepped_of_maintains hinv' rfl rfl ?_
      dsimp only [Event.pruned]
      split
      · exact hmaintains
      · next hidle =>
          refine (hnone ?_).weaken
          cases progress <;> simp_all
    · rintro e world' ⟨hinv', hmaintains⟩
      exact stepped_of_maintains hinv' rfl rfl hmaintains
  | garbageCollect =>
    rw [Call.run, wp_bind]
    have hcollect : Preserves (Upkeep codec false (fun _ => True)) (Lsm.garbageCollect codec) :=
      upkeep_garbageCollect
    refine hcollect.wp ?_ ?_
    · exact fun _ _ h => stepped_of_maintains (h hinv).1 rfl rfl (h hinv).2.weaken
    · exact fun _ _ h => stepped_of_maintains (h hinv).1 rfl rfl (h hinv).2.weaken
  | checkpoint name createdAt =>
    rw [Call.run, wp_bind]
    exact (retains_checkpoint name createdAt).wp (fun _ _ h => stepped_of_retains hinv rfl rfl h)
      (fun _ _ h => stepped_of_retains hinv rfl rfl h)
  | releaseCheckpoint name =>
    rw [Call.run, wp_bind]
    exact (retains_releaseCheckpoint name).wp (fun _ _ h => stepped_of_retains hinv rfl rfl h)
      (fun _ _ h => stepped_of_retains hinv rfl rfl h)
  | exportSnapshotBundle createdAt =>
    rw [Call.run, wp_bind]
    refine (upkeep_exportSnapshotBundle createdAt).wp ?_ ?_
    · exact fun _ _ h => stepped_of_maintains (h hinv).1 rfl rfl (h hinv).2.weaken
    · exact fun _ _ h => stepped_of_maintains (h hinv).1 rfl rfl (h hinv).2.weaken

theorem stepped_of_run {call : Call} {outcome : Except Error Reply} (hinv : Inv codec world)
    (hrun : call.run codec world = (outcome, world')) :
    Stepped codec ⟨call, world, outcome⟩ world' := by
  have hwp := wp_eq (call_effect hinv call) hrun
  cases outcome <;> exact hwp

end Rrflow.Lsm

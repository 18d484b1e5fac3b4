import Rrflow.Lsm.BundleSpec

/-!
Crashes.

The abstract store is an `Image`: a head sequence and a map from keys to values.
Its only operations are to apply a batch as a whole and to be replaced as a
whole. A process with its directory refines it: what a recovery of the directory
returns has the image `World.image`, and every operation, wherever it is
interrupted, leaves that image as it was or as the operation should leave it.

`Life` is any sequence of calls, crashes, reopenings and installations. It
remembers which batches were attempted and which of them were acknowledged.
-/

namespace Rrflow.Lsm

open Eff Latest List VersionedValue

variable {world world' : World} {db : Database} {bundle : SnapshotBundle} {table : Memtable}

/-! ### Images -/

/-- The logical state of a store: the head and the value of every key at it. -/
@[ext] structure Image where
  head : Nat
  value : Bytes → Option Bytes

def Image.empty : Image := ⟨0, fun _ => none⟩

/-- A batch takes effect as a whole; the last mutation of a key wins. -/
def Image.write (image : Image) (operations : List Mutation) : Image where
  head := image.head + operations.length
  value key := operations.foldl
    (fun value operation => if operation.key = key then operation.value else value)
    (image.value key)

def Database.image (codec : Codec) (db : Database) : Image :=
  ⟨db.snapshot, fun key => db.get codec key db.snapshot⟩

def SnapshotBundle.image (bundle : SnapshotBundle) : Image where
  head := bundle.sourceManifest.durableSequence
  value key := (latest sequence bundle.sourceManifest.durableSequence
    (bundle.segments.flatMap fun segment => segment.2.chain key)).bind VersionedValue.value

def World.logged (world : World) : Database :=
  { world.db with memtable := world.logTable.toOption.getD world.db.memtable }

/-- The image that a recovery of the directory finds. -/
def World.image (codec : Codec) (world : World) : Image := world.logged.image codec

variable {codec : Codec}

theorem Database.Coherent.image_eq (h : db.Coherent codec) :
    db.image codec = ⟨db.snapshot, fun key => db.valueAt key db.snapshot⟩ := by
  rw [Database.image]
  congr 1
  exact funext fun key => h.get_eq key db.snapshot

theorem logged_eq (h : world.logTable = .ok table) :
    world.logged = { world.db with memtable := table } := by
  rw [World.logged, h]
  rfl

theorem Inv.coherent_logged (h : Inv codec world) : world.logged.Coherent codec := by
  obtain ⟨table, htable, hroom, -⟩ := h.log
  rw [logged_eq htable]
  exact ⟨replayLog_ordered htable hroom (Memtable.ordered_atSequence _), h.coherent.settled,
    h.coherent.distinct, h.coherent.index⟩

/-- As long as the writer is open, readers see what the log has. -/
theorem Inv.logged_ready (h : Inv codec world) (hready : world.db.writerRequiresReopen = none) :
    world.logged = world.db := by
  rw [logged_eq (h.log_ready hready).1]

theorem Inv.image_ready (h : Inv codec world) (hready : world.db.writerRequiresReopen = none) :
    world.image codec = world.db.image codec := by
  rw [World.image, h.logged_ready hready]

theorem image_congr {db' : Database} (h : db.Coherent codec) (h' : db'.Coherent codec)
    (hhead : db'.snapshot = db.snapshot)
    (hvalue : ∀ key, db'.valueAt key db.snapshot = db.valueAt key db.snapshot) :
    db'.image codec = db.image codec := by
  rw [h.image_eq, h'.image_eq, hhead]
  congr 1
  exact funext hvalue

theorem valueAt_of_perm {db' : Database} {key : Bytes} {s : Nat}
    (hnodup : ((db'.held key).map sequence).Nodup)
    (h : (db'.held key).Perm (db.held key)) : db'.valueAt key s = db.valueAt key s := by
  rw [Database.valueAt, Database.versionAt, latest_perm hnodup h]
  rfl

section

variable {options : DatabaseOptions} (h : Recovered codec options world db)

include h

theorem Recovered.get_eq (hinv : Inv codec world) (key : Bytes) (s : Nat) :
    db.get codec key s = world.logged.get codec key s := by
  have hcoherent := h.coherent hinv
  rw [hcoherent.get_eq, hinv.coherent_logged.get_eq]
  refine valueAt_of_perm (hcoherent.nodup_held key) ?_
  rw [Database.held_eq, Database.held_eq, logged_eq (h.logTable hinv).1]
  exact List.Perm.append_left _ (h.segmentHeld_perm hinv key)

theorem Recovered.image_eq (hinv : Inv codec world) : db.image codec = world.image codec := by
  have hhead : db.snapshot = world.logged.snapshot := by
    rw [logged_eq (h.logTable hinv).1]
    rfl
  rw [World.image, Database.image, Database.image, hhead]
  congr 1
  exact funext fun key => h.get_eq hinv key _

end

/-- The last mutation of a key in a batch is its newest version. -/
theorem foldl_mutations (key : Bytes) {s : Nat} (operations : List Mutation) (first : Nat)
    (value : Option Bytes) (hs : first + operations.length ≤ s + 1) :
    operations.foldl
      (fun value operation => if operation.key = key then operation.value else value) value =
      (latest sequence s (chainOf key (stampOperations first operations))).elim
        value VersionedValue.value := by
  induction operations generalizing first value with
  | nil => rfl
  | cons operation rest ih =>
    rw [length_cons] at hs
    rw [foldl_cons, ih (first + 1) _ (by omega), stampOperations, chainOf_cons]
    split
    · rw [latest_cons, if_pos (by dsimp only; omega)]
      cases hrest : latest sequence s (chainOf key (stampOperations (first + 1) rest)) with
      | none => rfl
      | some w =>
        have hlatest := isLatest_latest sequence s (chainOf key (stampOperations (first + 1) rest))
        rw [hrest] at hlatest
        have hlt : first < w.sequence := le_sequence_of_stamped hlatest.1
        simp only [newer, if_pos hlt, Option.elim_some]
    · rfl

theorem Database.Coherent.image_applied {batch : WriteBatch} {last : Nat} (h : db.Coherent codec)
    (happlied : db.memtable.applyWriteBatch batch (db.snapshot + 1) last = .ok table)
    (h' : Database.Coherent codec { db with memtable := table }) :
    Database.image codec { db with memtable := table } =
      (db.image codec).write batch.operations := by
  obtain ⟨-, hlast, -, hmax, -⟩ := Memtable.applyWriteBatch_eq_ok happlied
  have hhead : Database.snapshot { db with memtable := table } =
      db.snapshot + batch.operations.length := by
    show table.maximumSequence = _
    rw [WriteBatch.len] at hlast
    omega
  rw [h.image_eq, h'.image_eq, Image.write]
  ext1
  · exact hhead
  · funext key
    dsimp only
    have hold : latest sequence (db.snapshot + batch.operations.length)
        (db.held key) = latest sequence db.snapshot (db.held key) := by
      refine latest_congr_of_no_rank_between (h.nodup_held key) fun v hv => ?_
      have := h.held_le hv
      omega
    rw [hhead, foldl_mutations key batch.operations (db.snapshot + 1) _
      (by omega : db.snapshot + 1 + batch.operations.length ≤
        db.snapshot + batch.operations.length + 1)]
    show (latest _ _ (Database.held { db with memtable := table } key)).bind _ = _
    rw [h.latest_held_applied happlied, hold]
    cases latest sequence (db.snapshot + batch.operations.length)
      (chainOf key (stampOperations (db.snapshot + 1) batch.operations)) <;> rfl

/-! ### One call -/

theorem Maintains.image_eq {prune : Bool} {safe : Nat → Prop} (hinv : Inv codec world)
    (hinv' : Inv codec world') (h : Maintains prune safe world world') :
    world'.db.image codec = world.db.image codec :=
  image_congr hinv.coherent hinv'.coherent h.head fun key =>
    (h.stays key _ (Or.inr (Or.inr le_rfl))).value_eq

theorem Logged.image_eq {batch : WriteBatch} (h : Logged codec batch world world' table)
    (hinv : Inv codec world) :
    world'.image codec = (world.db.image codec).write batch.operations := by
  have hlogged := logged_eq h.log
  have hcoherent := h.inv.coherent_logged
  have happlied : Database.Coherent codec { world.db with memtable := table } := by
    refine ⟨?_, hinv.coherent.settled, hinv.coherent.distinct, hinv.coherent.index⟩
    have htable := hcoherent.table
    rw [hlogged] at htable
    rw [← h.manifest]
    exact htable
  rw [World.image, ← hinv.coherent.image_applied h.applied happlied, hlogged] at *
  refine image_congr happlied hcoherent rfl fun key => ?_
  rw [Database.valueAt, Database.versionAt, Database.held_eq, Database.segmentHeld, h.segments]
  rfl

@[simp] theorem Image.write_nil (image : Image) : image.write [] = image := rfl

/-- The effect of a call on the image, in full. -/
theorem Effect.image_eq {protectedSnapshots : Option (List Nat)} {committed doubt : List Mutation}
    (hinv : Inv codec world) (hready : world.db.writerRequiresReopen = none)
    (h : Effect codec protectedSnapshots world committed doubt world') :
    world'.image codec = ((world.db.image codec).write committed).write doubt := by
  cases h with
  | upkeep hinv' hmaintains =>
    rw [hinv'.image_ready (hmaintains.reopen.trans hready), hmaintains.image_eq hinv hinv']
    rfl
  | wrote _ hmiddle hmaintains hwrote =>
    rw [hwrote.image_eq hmiddle, hmaintains.image_eq hinv hmiddle]
    rfl
  | doubt _ hmiddle hmaintains hdoubt =>
    rw [hdoubt.image_eq hmiddle, hmaintains.image_eq hinv hmiddle]
    rfl

theorem Registers.image_eq (h : Registers world world') (hinv : Inv codec world)
    (hinv' : Inv codec world') :
    world'.image codec = world.image codec := by
  have htable : world'.logTable = world.logTable := by
    rw [World.logTable, World.logTable, h.db, h.disk]
  obtain ⟨table, hlog, -⟩ := hinv.log
  have hlogged := logged_eq hlog
  have hlogged' := logged_eq (htable.trans hlog)
  refine image_congr hinv.coherent_logged hinv'.coherent_logged ?_ fun key => ?_
  · rw [hlogged, hlogged']
    rfl
  · rw [hlogged, hlogged', h.db]
    rfl

/-- A call of a writer that must reopen changes nothing but the registries, and it
fails when it has something to commit. -/
theorem wp_closed (hinv : Inv codec world) (hclosed : world.db.writerRequiresReopen ≠ none)
    (call : Call) :
    wp (call.run codec)
      (fun _ world' => Registers world world' ∧ call.operations world = [])
      (fun _ => Registers world) world := by
  have hrefl := Registers.refl world
  -- most calls ask first whether the writer is ready
  have hstop {α : Type} {f : Unit → Run α} :
      wp (ensureWriterReady >>= f) (fun _ _ => False) (fun _ => Registers world) world := by
    rw [wp_bind]
    exact wp_ensureWriterReady (fun hready => absurd hready hclosed) fun _ _ => hrefl
  cases call with
  | write | flushMemtable | maintenanceStep | maintenanceStepWithProtectedSnapshots
    | garbageCollect => exact wp_seq hstop fun _ _ h => h.elim
  | compact | compactIfNeeded | exportSnapshotBundle =>
    exact wp_seq (Q := fun _ _ => False) (wp_seq hstop fun _ _ h => h.elim) fun _ _ h => h.elim
  | begin =>
    rw [Call.run]
    exact wp_then (wp_beginTransaction hinv) (fun _ _ h => ⟨h.2.1, rfl⟩) fun _ _ h => h ▸ hrefl
  | stage id key value =>
    rw [Call.run]
    exact wp_then (wp_stage hinv id key value) (fun _ _ h => ⟨h.2.1, rfl⟩) fun _ _ h => h ▸ hrefl
  | rollback id => exact ⟨(releaseTransaction_spec hinv id).2.1, rfl⟩
  | commit id durability failure protectedSnapshots =>
    rw [Call.run, wp_bind]
    refine wp_commitTransaction (fun _ _ => hrefl) fun transaction _ => ?_
    unfold commitTransactionInner
    rw [wp_bind]
    refine wp_ensureWriterReady (fun hready => absurd hready hclosed) fun _ _ => ?_
    exact (releaseTransaction_spec hinv id).2.1
  | checkpoint name createdAt =>
    rw [Call.run, wp_bind]
    exact (retains_checkpoint name createdAt).wp (fun _ _ h => ⟨h.registers, rfl⟩)
      fun _ _ h => h.registers
  | releaseCheckpoint name =>
    rw [Call.run, wp_bind]
    exact (retains_releaseCheckpoint name).wp (fun _ _ h => ⟨h.registers, rfl⟩)
      fun _ _ h => h.registers

/-- A call leaves the image as it was or writes its mutations to it; when it
succeeds, it writes them. -/
theorem call_image {call : Call} {outcome : Except Error Reply} (hinv : Inv codec world)
    (hrun : call.run codec world = (outcome, world')) :
    (world'.image codec = world.image codec ∨
      world'.image codec = (world.image codec).write (call.operations world)) ∧
    (outcome.isOk → world'.image codec = (world.image codec).write (call.operations world)) := by
  have hstep := stepped_of_run hinv hrun
  by_cases hready : world.db.writerRequiresReopen = none
  · obtain ⟨middle, committed, doubt, heffect, hregisters, hcommitted, hok, hdoubt⟩ :=
      hstep.effect
    have himage : world'.image codec = ((world.image codec).write committed).write doubt := by
      rw [hregisters.image_eq heffect.inv hstep.inv, heffect.image_eq hinv hready,
        hinv.image_ready hready]
    cases outcome with
    | ok reply =>
      obtain ⟨rfl, rfl⟩ := hok rfl
      exact ⟨Or.inr himage, fun _ => himage⟩
    | error e =>
      obtain rfl : committed = [] := by
        have hlen := congrArg List.length hcommitted
        rw [length_stampOperations] at hlen
        refine length_eq_zero_iff.mp (hlen.symm.trans ?_)
        simp [Event.committed]
      refine ⟨?_, by simp [Except.isOk, Except.toBool]⟩
      rcases hdoubt with rfl | rfl
      · exact Or.inl himage
      · exact Or.inr himage
  · have hclosed := wp_eq (wp_closed hinv hready call) hrun
    cases outcome with
    | ok reply =>
      have himage := hclosed.1.image_eq hinv hstep.inv
      rw [hclosed.2]
      exact ⟨Or.inl himage, fun _ => himage⟩
    | error e =>
      exact ⟨Or.inl (Registers.image_eq hclosed hinv hstep.inv),
        by simp [Except.isOk, Except.toBool]⟩

theorem Grows.image_eq (h : Grows codec world world') (hinv : Inv codec world) :
    world'.image codec = world.image codec := by
  obtain ⟨table, hlog, -⟩ := hinv.log
  have hlogged := logged_eq hlog
  have hlogged' := logged_eq ((hinv.logTable_of_grows h).trans hlog)
  refine image_congr hinv.coherent_logged (hinv.of_grows h).coherent_logged ?_ fun key => ?_
  · rw [hlogged, hlogged']
    rfl
  · rw [hlogged, hlogged', h.db]
    rfl

/-- A store without mutable versions has the image of a bundle of its segments. -/
theorem image_of_packed {packed : List Segment} (h : db.Coherent codec)
    (hmemtable : db.memtable = .atSequence bundle.sourceManifest.durableSequence)
    (hsound : bundle.Sound codec packed) (hperm : packed.Perm db.segments) :
    db.image codec = bundle.image := by
  have hhead : db.snapshot = bundle.sourceManifest.durableSequence := by
    rw [Database.snapshot, hmemtable]
    rfl
  rw [h.image_eq, SnapshotBundle.image, hhead]
  congr 1
  funext key
  have hheld : (db.held key).Perm
      (bundle.segments.flatMap fun segment => segment.2.chain key) := by
    rw [Database.held_eq, hmemtable, Memtable.chain_atSequence, hsound.segments, flatMap_map]
    exact (hperm.flatMap_right _).symm
  rw [Database.valueAt, Database.versionAt, latest_perm (h.nodup_held key) hheld]

theorem Installed.image_eq {packed : List Segment} (h : Installed codec bundle packed world world')
    (hsound : bundle.Sound codec packed) : world'.image codec = bundle.image := by
  rw [h.inv.image_ready h.ready]
  exact image_of_packed h.inv.coherent h.memtable hsound (by rw [h.segments])

theorem export_image {createdAt : Nat} (hinv : Inv codec world)
    (hrun : exportSnapshotBundle codec createdAt world = (.ok bundle, world')) :
    ∃ packed, bundle.Sound codec packed ∧ bundle.image = world.db.image codec := by
  obtain ⟨⟨hinv', hmaintains⟩, hmemtable, packed, hsound, hperm⟩ :=
    wp_eq (wp_exportSnapshotBundle hinv createdAt) hrun
  refine ⟨packed, hsound, ?_⟩
  rw [← hmaintains.image_eq hinv hinv']
  exact (image_of_packed hinv'.coherent hmemtable hsound hperm).symm

/-- Installing an exported bundle changes nothing that a recovery reads, or it
replaces the image. The manifest pointer tells which. -/
theorem install_image {packed : List Segment} {createdAt : Nat}
    {failure : Option (SnapshotInstallBoundary × FailureMode)} {outcome : Except Error Manifest}
    (hinv : Inv codec world) (hsound : bundle.Sound codec packed)
    (hrun : installSnapshotBundleInner codec bundle createdAt failure world = (outcome, world')) :
    Inv codec world' ∧
      (world'.disk.current = world.disk.current ∧ world'.image codec = world.image codec ∨
        world'.disk.current ≠ world.disk.current ∧ world'.image codec = bundle.image) := by
  have hcases : Grows codec world world' ∨ Installed codec bundle packed world world' := by
    have h := wp_eq (wp_installSnapshotBundleInner hinv hsound createdAt failure) hrun
    cases outcome <;> exact h
  rcases hcases with hg | hi
  · exact ⟨hinv.of_grows hg, Or.inl ⟨hg.current, hg.image_eq hinv⟩⟩
  · exact ⟨hi.inv, Or.inr ⟨hi.current, hi.image_eq hsound⟩⟩

/-! ### Lives -/

/-- A batch that was given to the store, and whether the call returned success.
Calls that commit nothing attempt the empty batch. -/
structure Attempt where
  operations : List Mutation
  acknowledged : Bool

def Event.attempt (event : Event) : Attempt := ⟨event.operations, event.outcome.isOk⟩

/-- A selection of the attempted batches, in their order, with all acknowledged
ones. -/
inductive Keeps : List Attempt → List (List Mutation) → Prop
  | nil : Keeps [] []
  | keep {attempts : List Attempt} {kept : List (List Mutation)} (attempt : Attempt) :
      Keeps attempts kept → Keeps (attempts ++ [attempt]) (kept ++ [attempt.operations])
  | drop {attempts : List Attempt} {kept : List (List Mutation)} (attempt : Attempt) :
      attempt.acknowledged = false → Keeps attempts kept → Keeps (attempts ++ [attempt]) kept

/-- Any sequence of calls, reopenings and installations of exported bundles. The
image is the one the store started from or that was last installed; the attempts
are those since then. -/
inductive Life (codec : Codec) : Image → List Attempt → World → Prop
  | create {options : DatabaseOptions} {format : Option Nat} {db : Database} {disk : Disk}
      (readings : List Nat) (denials : List (Option (Nat × Nat × Nat))) :
      create codec options format = .ok (db, disk) →
      Life codec .empty [] { db, disk, transactions := ∅, readings, denials }
  | call {base : Image} {attempts : List Attempt} {world world' : World} {call : Call}
      {outcome : Except Error Reply} :
      Life codec base attempts world → call.run codec world = (outcome, world') →
      Life codec base (attempts ++ [(⟨call, world, outcome⟩ : Event).attempt]) world'
  | reopen {base : Image} {attempts : List Attempt} {world world' : World}
      {options : DatabaseOptions} {readings : List Nat} :
      Life codec base attempts world → reopen codec options world readings = .ok world' →
      Life codec base attempts world'
  | install {base sourceBase : Image} {attempts sourceAttempts : List Attempt}
      {world world' source source' : World} {exportedAt createdAt : Nat} {bundle : SnapshotBundle}
      {failure : Option (SnapshotInstallBoundary × FailureMode)} {outcome : Except Error Manifest} :
      Life codec base attempts world → Life codec sourceBase sourceAttempts source →
      (Call.exportSnapshotBundle exportedAt).run codec source = (.ok (.bundle bundle), source') →
      installSnapshotBundleInner codec bundle createdAt failure world = (outcome, world') →
      Life codec (if world'.disk.current = world.disk.current then base else bundle.image)
        (if world'.disk.current = world.disk.current then attempts else []) world'

theorem Life.runCalls {base : Image} {attempts : List Attempt} (h : Life codec base attempts world)
    (calls : List Call) :
    ∃ attempts', Life codec base attempts' (runCalls codec world calls).2 := by
  induction calls generalizing attempts world with
  | nil => exact ⟨attempts, h⟩
  | cons call rest ih => exact ih (h.call rfl)

/-- The bundle comes from some store of this format. -/
def Exported (codec : Codec) (bundle : SnapshotBundle) : Prop :=
  ∃ base attempts source source', ∃ exportedAt, Life codec base attempts source ∧
    (Call.exportSnapshotBundle exportedAt).run codec source = (.ok (.bundle bundle), source')

theorem sound_of_run {source source' : World} {exportedAt : Nat} (hinv : Inv codec source)
    (hrun : (Call.exportSnapshotBundle exportedAt).run codec source =
      (.ok (.bundle bundle), source')) :
    ∃ packed, bundle.Sound codec packed ∧ bundle.image = source.db.image codec := by
  rw [Call.run] at hrun
  rcases hexport : exportSnapshotBundle codec exportedAt source with ⟨outcome, world⟩
  cases outcome with
  | error e => simp [bind, Eff.bind, hexport] at hrun
  | ok exported =>
    simp only [bind, Eff.bind, hexport, pure, Prod.mk.injEq, Except.ok.injEq,
      Reply.bundle.injEq] at hrun
    exact hrun.1 ▸ export_image hinv hexport

/-- In every life the invariant holds, and the directory has the image that results
from a selection of the attempts which leaves out no acknowledged one. -/
theorem Life.account {base : Image} {attempts : List Attempt} (h : Life codec base attempts world) :
    Inv codec world ∧
      ∃ kept, Keeps attempts kept ∧ world.image codec = kept.foldl Image.write base := by
  induction h with
  | create readings denials hcreate =>
    obtain ⟨hinv, hhead, hready, hheld⟩ := inv_create readings denials hcreate
    refine ⟨hinv, [], .nil, ?_⟩
    rw [hinv.image_ready hready, hinv.coherent.image_eq]
    ext1
    · exact hhead
    · funext key
      dsimp only
      rw [Database.valueAt, Database.versionAt, hheld]
      rfl
  | call hlife hrun ih =>
    obtain ⟨hinv, kept, hkeeps, himage⟩ := ih
    refine ⟨(stepped_of_run hinv hrun).inv, ?_⟩
    obtain ⟨hor, hok⟩ := call_image hinv hrun
    rename_i call outcome
    cases hacknowledged : outcome.isOk with
    | true =>
      refine ⟨_, hkeeps.keep _, ?_⟩
      rw [hok hacknowledged, himage, foldl_append]
      rfl
    | false =>
      rcases hor with hsame | hwrote
      · exact ⟨kept, hkeeps.drop _ hacknowledged, hsame.trans himage⟩
      · refine ⟨_, hkeeps.keep _, ?_⟩
        rw [hwrote, himage, foldl_append]
        rfl
  | reopen hlife hopen ih =>
    obtain ⟨hinv, kept, hkeeps, himage⟩ := ih
    rename_i world world' options readings
    obtain ⟨db, hdb, hopened⟩ := Checks.bind_eq_ok.mp hopen
    cases hopened
    have hrecovered := recovered_of_openDatabase hinv hdb
    have hinv' := hrecovered.inv hinv
    refine ⟨hinv', kept, hkeeps, ?_⟩
    rw [hinv'.image_ready hrecovered.ready, ← himage]
    exact hrecovered.image_eq hinv
  | install hlife hsource hexport hrun ih ihsource =>
    obtain ⟨hinv, kept, hkeeps, himage⟩ := ih
    obtain ⟨packed, hsound, -⟩ := sound_of_run ihsource.1 hexport
    obtain ⟨hinv', ⟨hcurrent, hsame⟩ | ⟨hcurrent, hnew⟩⟩ := install_image hinv hsound hrun
    · rw [if_pos hcurrent, if_pos hcurrent]
      exact ⟨hinv', kept, hkeeps, hsame.trans himage⟩
    · rw [if_neg hcurrent, if_neg hcurrent]
      exact ⟨hinv', [], .nil, hnew⟩

/-- What a directory holds does not depend on who opens it: all processes that open it read
the same value of every key at every snapshot, and as long as the writer was open these are
the values that it read. -/
theorem open_reads_alike {base : Image} {attempts : List Attempt}
    (hlife : Life codec base attempts world) {options : DatabaseOptions} {owner : Nat}
    {readings : List Nat}
    (hopen : openDatabase codec options owner world.disk readings = .ok db) :
    (∀ options' owner' readings' db',
      openDatabase codec options' owner' world.disk readings' = .ok db' →
        ∀ key s, db'.get codec key s = db.get codec key s) ∧
      (world.db.writerRequiresReopen = none →
        ∀ key s, db.get codec key s = world.db.get codec key s) := by
  have hinv := hlife.account.1
  have hget := (recovered_of_openDatabase hinv hopen).get_eq hinv
  refine ⟨fun _ _ _ db' hopen' key s => ?_, fun hready key s => ?_⟩
  · rw [hget, (recovered_of_openDatabase hinv hopen').get_eq hinv]
  · rw [hget, hinv.logged_ready hready]

/-- A bundle carries a store over: installing what a source exported leaves a target as it
was, or makes it read at its head what the source read at its own. -/
theorem install_copies_source {base sourceBase : Image} {attempts sourceAttempts : List Attempt}
    {source source' : World} {exportedAt createdAt : Nat}
    {failure : Option (SnapshotInstallBoundary × FailureMode)} {outcome : Except Error Manifest}
    (hlife : Life codec base attempts world) (hsource : Life codec sourceBase sourceAttempts source)
    (hexport : (Call.exportSnapshotBundle exportedAt).run codec source =
      (.ok (.bundle bundle), source'))
    (hinstall : installSnapshotBundleInner codec bundle createdAt failure world =
      (outcome, world')) :
    world'.image codec = if world'.disk.current = world.disk.current then world.image codec
      else source.db.image codec := by
  obtain ⟨packed, hsound, himage⟩ := sound_of_run hsource.account.1 hexport
  obtain ⟨-, ⟨hcurrent, hsame⟩ | ⟨hcurrent, hnew⟩⟩ :=
    install_image hlife.account.1 hsound hinstall
  · rw [if_pos hcurrent, hsame]
  · rw [if_neg hcurrent, hnew, himage]

/-! ### Interrupted operations -/

/-- What a crash can interrupt. The failure that a call or an installation carries
says after which step of it the process stops. -/
inductive Operation where
  | call (request : Call)
  | install (bundle : SnapshotBundle) (createdAt : Nat)
      (failure : Option (SnapshotInstallBoundary × FailureMode))

def Operation.run (codec : Codec) (operation : Operation) (world : World) : World :=
  match operation with
  | .call request => (request.run codec world).2
  | .install bundle createdAt failure =>
    (installSnapshotBundleInner codec bundle createdAt failure world).2

/-- The image that the operation leaves when nothing interrupts it. -/
def Operation.after (codec : Codec) (operation : Operation) (world : World) : Image :=
  match operation with
  | .call request => (world.image codec).write (request.operations world)
  | .install bundle _ _ => bundle.image

/-- Only bundles that a store exported are installed. -/
def Operation.Legitimate (codec : Codec) : Operation → Prop
  | .call _ => True
  | .install bundle _ _ => Exported codec bundle

theorem Operation.run_image (hinv : Inv codec world) {operation : Operation}
    (hlegitimate : operation.Legitimate codec) :
    Inv codec (operation.run codec world) ∧
      ((operation.run codec world).image codec = world.image codec ∨
        (operation.run codec world).image codec = operation.after codec world) := by
  cases operation with
  | call request =>
    rcases hrun : request.run codec world with ⟨outcome, world'⟩
    rw [Operation.run, hrun]
    exact ⟨(stepped_of_run hinv hrun).inv, (call_image hinv hrun).1⟩
  | install bundle createdAt failure =>
    obtain ⟨_, _, _, _, _, hsource, hexport⟩ := hlegitimate
    obtain ⟨packed, hsound, -⟩ := sound_of_run hsource.account.1 hexport
    rcases hrun : installSnapshotBundleInner codec bundle createdAt failure world with
      ⟨outcome, world'⟩
    rw [Operation.run, hrun]
    obtain ⟨hinv', h⟩ := install_image hinv hsound hrun
    exact ⟨hinv', h.imp And.right And.right⟩

/-- Wherever an operation is interrupted, the directory opens when the recovery
limits admit it, to the state before the operation or to the state after it. No
batch acknowledged since the last installation is missing. -/
theorem open_after_crash {base : Image} {attempts : List Attempt} {world : World}
    (hlife : Life codec base attempts world) (operation : Operation)
    (hlegitimate : operation.Legitimate codec) {readings : List Nat}
    (hadmits : Admits codec (operation.run codec world).db.options
      (operation.run codec world).disk readings) (owner : Nat) :
    ∃ db, openDatabase codec (operation.run codec world).db.options owner
        (operation.run codec world).disk readings = .ok db ∧
      (db.image codec = world.image codec ∨ db.image codec = operation.after codec world) ∧
      (world.db.writerRequiresReopen = none → world.image codec = world.db.image codec) ∧
      ∀ base' attempts', Life codec base' attempts' (operation.run codec world) →
        ∃ kept, Keeps attempts' kept ∧ db.image codec = kept.foldl Image.write base' := by
  have hinv := hlife.account.1
  obtain ⟨hinv', himage⟩ := Operation.run_image hinv hlegitimate
  obtain ⟨db, hopen, hrecovered⟩ := exists_openDatabase hinv' hadmits owner
  refine ⟨db, hopen, ?_, hinv.image_ready, ?_⟩
  · rw [hrecovered.image_eq hinv']
    exact himage
  · intro base' attempts' hlife'
    obtain ⟨-, kept, hkeeps, hkept⟩ := hlife'.account
    exact ⟨kept, hkeeps, (hrecovered.image_eq hinv').trans hkept⟩

/-- However a cycle ends, the files that the current manifest or the manifest of a
checkpoint names are as they were. -/
theorem garbageCollect_keeps_named {outcome : Except Error Bool} {manifest : Manifest}
    (hrun : garbageCollect codec world = (outcome, world'))
    (hnamed : manifest = world.db.manifest ∨ ∃ checkpoint ∈ world.disk.checkpoints.values,
      checkpoint.manifest = manifest.digest codec) :
    world'.disk.checkpoints = world.disk.checkpoints ∧
    world'.disk.manifests.find? (manifest.digest codec) =
      world.disk.manifests.find? (manifest.digest codec) ∧
    (∀ segment ∈ manifest.segments,
      world'.disk.segments.find? segment.id = world.disk.segments.find? segment.id) ∧
    world'.disk.wals.find? manifest.walStartSequence =
      world.disk.wals.find? manifest.walStartSequence := by
  have hsweeps : Sweeps codec world world' := by
    have h := wp_eq (sweeps_garbageCollect world) hrun
    cases outcome <;> exact h
  rcases hsweeps with hs | ⟨retained, hrooted, hr⟩
  · simp [hs.disk]
  · have hcovers := hrooted manifest hnamed
    exact ⟨hr.checkpoints, hr.manifests _ hcovers.current,
      fun segment hmem => hr.segments _ (hcovers.segments segment hmem), hr.wals _ hcovers.wal⟩

theorem Ideal.life_start : Life Ideal.codec .empty [] Ideal.start :=
  Life.create [] [] (rfl : create Ideal.codec {} none = .ok (Ideal.start.db, Ideal.start.disk))

/-- Options under which a recovery may open one file. -/
def Ideal.oneFile : DatabaseOptions := { recovery := { files := 1 } }

def Ideal.target : World :=
  ((Call.write Ideal.putOne .authoritative none).run Ideal.codec Ideal.start).2

def Ideal.source : World :=
  (runCalls Ideal.codec Ideal.start
    [.write Ideal.deleteOne .authoritative none, .write Ideal.deleteOne .authoritative none]).2

def Ideal.exported : SnapshotBundle :=
  match (exportSnapshotBundle Ideal.codec 5 Ideal.source).1 with
  | .ok bundle => bundle
  | .error _ => ⟨Ideal.firstManifest, []⟩

theorem Ideal.exported_source : Exported Ideal.codec Ideal.exported := by
  have hok : (exportSnapshotBundle Ideal.codec 5 Ideal.source).1.isOk := by decide +kernel
  obtain ⟨attempts, hlife⟩ := Ideal.life_start.runCalls
    [.write Ideal.deleteOne .authoritative none, .write Ideal.deleteOne .authoritative none]
  rcases hrun : exportSnapshotBundle Ideal.codec 5 Ideal.source with ⟨_ | bundle, source'⟩
  · rw [hrun] at hok
    cases hok
  · refine ⟨.empty, attempts, Ideal.source, source', 5, hlife, ?_⟩
    rw [Ideal.exported, Call.run, hrun]
    simp only [bind, Eff.bind, hrun]
    rfl

/-- A recovery that may open one file only fails, and an installation replaces an
acknowledged batch. -/
theorem open_after_crash_fails :
    (∃ world, Life Ideal.codec .empty [] world ∧ world.db.options = Ideal.oneFile ∧
      (openDatabase Ideal.codec world.db.options 1
        ((Operation.call (.write Ideal.putOne .authoritative (some (.walSynced, .crash)))).run
          Ideal.codec world).disk []).isOk = false) ∧
    ((Call.write Ideal.putOne .authoritative none).run Ideal.codec Ideal.start).1.isOk ∧
    Exported Ideal.codec Ideal.exported ∧
    (openDatabase Ideal.codec {} 1 ((Operation.install Ideal.exported 6 none).run Ideal.codec
        Ideal.target).disk []).map (fun db => db.get Ideal.codec [1] db.snapshot) = .ok none := by
  refine ⟨?_, by decide +kernel, Ideal.exported_source, by decide +kernel⟩
  exact ⟨_, Life.create [] [] (rfl : create Ideal.codec Ideal.oneFile none = .ok (_, _)), rfl,
    by decide +kernel⟩

/-- A flush of the target that stops before it publishes its manifest. -/
theorem open_after_crash_flush :
    ∃ db, openDatabase Ideal.codec {} 1
        ((Operation.call (.flushMemtable 3 (some (.successorWalSynced, .crash)))).run Ideal.codec
          Ideal.target).disk [] = .ok db ∧ db.image Ideal.codec = Ideal.target.image Ideal.codec := by
  obtain ⟨attempts, hlife⟩ := Ideal.life_start.runCalls [.write Ideal.putOne .authoritative none]
  have hadmits : Admits Ideal.codec {} ((Operation.call (.flushMemtable 3
      (some (.successorWalSynced, .crash)))).run Ideal.codec Ideal.target).disk [] := by
    constructor <;> decide +kernel
  obtain ⟨db, hopen, himage, -⟩ := open_after_crash hlife
    (.call (.flushMemtable 3 (some (.successorWalSynced, .crash)))) trivial hadmits 1
  exact ⟨db, hopen, himage.elim id id⟩

theorem open_reads_alike_target :
    ∃ db, openDatabase Ideal.codec {} 7 Ideal.target.disk [] = .ok db ∧
      ∀ key s, db.get Ideal.codec key s = Ideal.target.db.get Ideal.codec key s := by
  obtain ⟨attempts, hlife⟩ := Ideal.life_start.runCalls [.write Ideal.putOne .authoritative none]
  obtain ⟨db, hopen, -⟩ := Checks.exists_ok_of_any (p := fun _ => true) (by decide +kernel :
    (openDatabase Ideal.codec {} 7 Ideal.target.disk []).toOption.any (fun _ => true) = true)
  exact ⟨db, hopen, (open_reads_alike hlife hopen).2 (by decide +kernel)⟩

theorem install_copies_source_target : ∃ source base attempts,
    Life Ideal.codec base attempts source ∧
      (installSnapshotBundleInner Ideal.codec Ideal.exported 6 none Ideal.target).2.image
        Ideal.codec = source.db.image Ideal.codec := by
  obtain ⟨attempts, hlife⟩ := Ideal.life_start.runCalls [.write Ideal.putOne .authoritative none]
  obtain ⟨base, _, source, _, _, hsource, hexport⟩ := Ideal.exported_source
  have hcurrent : ¬(installSnapshotBundleInner Ideal.codec Ideal.exported 6 none
      Ideal.target).2.disk.current = Ideal.target.disk.current := by decide +kernel
  rcases hinstall : installSnapshotBundleInner Ideal.codec Ideal.exported 6 none Ideal.target with
    ⟨outcome, world'⟩
  rw [hinstall] at hcurrent
  exact ⟨source, _, _, hsource, (install_copies_source hlife hsource hexport hinstall).trans
    (if_neg hcurrent)⟩

/-- A checkpoint of an older manifest, most of whose files the store itself has given up. -/
def Ideal.pinnedCalls : List Call :=
  [.write Ideal.putOne .authoritative none, .flushMemtable 3 none, .checkpoint [1] 4,
    .write Ideal.deleteOne .authoritative none, .flushMemtable 5 none, .compact [] 6 none]

theorem garbageCollect_keeps_named_pinned :
    let world := (runCalls Ideal.codec Ideal.start Ideal.pinnedCalls).2
    ∃ checkpoint ∈ world.disk.checkpoints.values, ∃ manifest,
      world.disk.manifests.find? checkpoint.manifest = some manifest ∧
      manifest ≠ world.db.manifest ∧
      (garbageCollect Ideal.codec world).2.disk.manifests.find? checkpoint.manifest =
        some manifest := by
  intro world
  have hpinned : (world.disk.checkpoints.values.any fun checkpoint =>
      (world.disk.manifests.find? checkpoint.manifest).any fun manifest =>
        checkpoint.manifest = manifest.digest Ideal.codec ∧ manifest ≠ world.db.manifest) = true := by
    decide +kernel
  obtain ⟨checkpoint, hmem, hfound⟩ := any_eq_true.mp hpinned
  obtain ⟨manifest, hfind, htest⟩ := (Option.any_eq_true ..).mp hfound
  obtain ⟨hdigest, hold⟩ := of_decide_eq_true htest
  refine ⟨checkpoint, hmem, manifest, hfind, hold, ?_⟩
  rcases hrun : garbageCollect Ideal.codec world with ⟨outcome, world'⟩
  rw [← hfind, hdigest]
  exact (garbageCollect_keeps_named hrun (.inr ⟨checkpoint, hmem, hdigest⟩)).2.1

end Rrflow.Lsm

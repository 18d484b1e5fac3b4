import Rrflow.Lsm.ReclamationSpec

/-!
What a write does: after maintenance, which readers do not notice, one frame is
appended to the log and the batch is applied to the mutable table. A failure
after the append leaves the frame in the log and the writer closed; whether the
table has the batch does not matter then, because the next open replays the log.
-/

namespace Rrflow.Lsm

open Eff Latest

variable {codec : Codec}

/-! ### The append -/

/-- One frame was appended to the active log, which now replays to `table`. The
rest of the state is as before, up to what the process remembers of the write. -/
structure Logged (codec : Codec) (batch : WriteBatch) (world world' : World) (table : Memtable) :
    Prop where
  inv : Inv codec world'
  applied : world.db.memtable.applyWriteBatch batch (world.db.snapshot + 1)
    (world.db.snapshot + batch.len) = .ok table
  log : world'.logTable = .ok table
  segments : world'.db.segments = world.db.segments
  manifest : world'.db.manifest = world.db.manifest
  snapshots : world'.db.transactionSnapshots = world.db.transactionSnapshots

/-- The world after a frame was appended, with what the process remembers of it
left open. -/
structure Appended (batch : WriteBatch) (world world' : World) (memtable : Memtable)
    (next payload : Nat) (reopen : Option String) : Prop where
  db : world'.db = { world.db with
    memtable, walNextSequence := next, walPayloadBytes := payload, writerRequiresReopen := reopen }
  disk : world'.disk = { world.disk with
    wals := world.disk.wals.insert world.db.walStart
      ((world.disk.wals.find? world.db.walStart).getD [] ++
        [⟨batch, world.db.snapshot + 1, world.db.snapshot + batch.len⟩]) }
  transactions : world'.transactions = world.transactions

section Appended

variable {batch : WriteBatch} {world world' : World} {table memtable : Memtable}
  {next payload : Nat} {reopen : Option String}

theorem Appended.logTable (h : Appended batch world world' memtable next payload reopen)
    (hlog : world.logTable = .ok world.db.memtable)
    (happlied : world.db.memtable.applyOwnedRecovered batch (world.db.snapshot + 1)
      (world.db.snapshot + batch.len) world.db.options.mutableLimits = .ok table) :
    world'.logTable = .ok table := by
  rw [World.logTable, h.db, h.disk]
  rw [SortedMap.find?_insert_self, Option.getD_some, replayLog_concat]
  exact ⟨world.db.memtable, hlog, happlied⟩

/-- Whatever the process remembers of an appended frame, the invariant holds when
the table is the old or the new one and the writer is closed unless it is the new
one. -/
theorem Appended.logged (h : Appended batch world world' memtable next payload reopen)
    (hinv : Inv codec world) (hready : world.db.writerRequiresReopen = none)
    (happlied : world.db.memtable.applyOwnedRecovered batch (world.db.snapshot + 1)
      (world.db.snapshot + batch.len) world.db.options.mutableLimits = .ok table)
    (hroom : world.db.snapshot + batch.len < u64Max)
    (hmemtable : memtable = world.db.memtable ∨ memtable = table)
    (hreopen : reopen = none → memtable = table ∧ next = world.db.snapshot + batch.len + 1) :
    Logged codec batch world world' table := by
  obtain ⟨hlog, hhead, -⟩ := hinv.log_ready hready
  have happly := (applyOwnedRecovered_eq_ok.mp happlied).2
  obtain ⟨-, -, -, hmax, -, -⟩ := Memtable.applyWriteBatch_eq_ok happly
  have hlogTable := h.logTable hlog happlied
  have hdb := h.db
  have htable : memtable.Ordered world.db.manifest.durableSequence := by
    rcases hmemtable with rfl | rfl
    · exact hinv.coherent.table
    · exact hinv.coherent.table.applyWriteBatch hhead happly
  have hge : world.db.snapshot ≤ memtable.maximumSequence := by
    rcases hmemtable with rfl | rfl
    · exact le_rfl
    · omega
  refine
    { inv := ?_, applied := happly, log := hlogTable
      segments := by rw [hdb]
      manifest := by rw [hdb]
      snapshots := by rw [hdb] }
  constructor
  · rw [hdb]; exact hinv.options
  · rw [hdb]
    exact ⟨htable, hinv.coherent.settled, hinv.coherent.distinct, hinv.coherent.index⟩
  · rw [hdb]; exact hinv.valid
  · rw [hdb]; exact hinv.described
  · rw [hdb]; exact hinv.walStart
  · rw [hdb]; exact hinv.walAfter
  · rw [hdb, h.disk]; exact hinv.current
  · rw [hdb, h.disk]; exact hinv.stored
  · rw [hdb, h.disk]; exact hinv.present
  · rw [h.disk]; exact hinv.filed
  · rw [hdb, h.disk]
    rw [SortedMap.find?_insert_self]
    rfl
  · rw [hdb, h.disk]
    intro start frames hlt hfind
    rw [SortedMap.find?_insert_of_ne _ _ hlt.ne'] at hfind
    exact hinv.unused start frames hlt hfind
  · refine ⟨table, hlogTable, by omega, ?_⟩
    rw [hdb]
    intro hnone
    obtain ⟨rfl, rfl⟩ := hreopen hnone
    refine ⟨rfl, ?_⟩
    show _ = memtable.maximumSequence + 1
    rw [hmax]
  · rw [hdb, h.transactions]
    intro id transaction hfind
    obtain ⟨howner, hle⟩ := hinv.owners id transaction hfind
    exact ⟨howner, hle.trans hge⟩
  · rw [hdb, h.transactions]; exact hinv.pins

end Appended

variable {world : World}

theorem wp_appendWriteBatch (batch : WriteBatch) (durability : Durability)
    (hnext : world.db.walNextSequence = world.db.snapshot + 1) :
    wp (appendWriteBatch batch durability)
      (fun receipt world' => receipt.firstSequence = world.db.snapshot + 1 ∧
        receipt.lastSequence = world.db.snapshot + batch.len ∧
        world.db.snapshot + batch.len < u64Max ∧
        Appended batch world world' world.db.memtable (world.db.snapshot + batch.len + 1)
          world.db.walPayloadBytes world.db.writerRequiresReopen)
      (fun _ world' => Silent world world') world := by
  have hlen := batch.len_pos
  unfold appendWriteBatch
  rw [wp_bind, wp_get]
  dsimp only
  cases hadd : checkedAdd world.db.walNextSequence (batch.len - 1) with
  | none => exact Std.Refl.refl world
  | some last =>
    obtain ⟨rfl, hle⟩ := checkedAdd_eq_some hadd
    have hlast : world.db.walNextSequence + (batch.len - 1) = world.db.snapshot + batch.len := by
      omega
    rw [hlast, wp_ite]
    split
    · exact Std.Refl.refl world
    · rename_i hrange
      refine silent_admitDisk.seq (fun _ _ hs => hs) fun _ admitted hs => ?_
      rw [wp_bind, wp_modify]
      refine ⟨hnext, rfl, by omega, ?_, ?_, hs.transactions⟩
      · dsimp only
        rw [hs.db]
      · dsimp only
        rw [hs.disk, hs.db, hnext]

theorem wp_injectPostAppend (failure : Option (WriteBoundary × FailureMode))
    (reached : WriteBoundary) :
    wp (injectPostAppend failure reached) (fun _ world' => world' = world)
      (fun _ world' => world' =
        world.setDb { world.db with writerRequiresReopen := some reached.asStr }) world := by
  unfold injectPostAppend
  split
  · rw [wp_ite]
    split
    · rfl
    · rfl
  · rfl

variable {world world' : World}

theorem Appended.close {batch : WriteBatch} {memtable : Memtable} {next payload : Nat}
    {reopen : Option String} (h : Appended batch world world' memtable next payload reopen)
    (boundary : String) :
    Appended batch world
      (world'.setDb { world'.db with writerRequiresReopen := some boundary }) memtable next payload
      (some boundary) :=
  ⟨by rw [World.setDb, h.db], h.disk, h.transactions⟩

/-- What is known of the state once the frame is in the log. -/
structure Wrote (codec : Codec) (batch : WriteBatch) (world world' : World) (table : Memtable) :
    Prop extends Logged codec batch world world' table where
  memtable : world'.db.memtable = table
  ready : world'.db.writerRequiresReopen = none

structure InDoubt (codec : Codec) (batch : WriteBatch) (world world' : World) (table : Memtable) :
    Prop extends Logged codec batch world world' table where
  closed : world'.db.writerRequiresReopen ≠ none

theorem wp_publishAppended {batch : WriteBatch} {table : Memtable}
    {receipt : AppendReceipt} (hinv : Inv codec world)
    (hready : world.db.writerRequiresReopen = none)
    (happlied : world.db.memtable.applyOwnedRecovered batch (world.db.snapshot + 1)
      (world.db.snapshot + batch.len) world.db.options.mutableLimits = .ok table)
    (hroom : world.db.snapshot + batch.len < u64Max)
    (hfirst : receipt.firstSequence = world.db.snapshot + 1)
    (hlast : receipt.lastSequence = world.db.snapshot + batch.len)
    (happended : Appended batch world world' world.db.memtable
      (world.db.snapshot + batch.len + 1) world.db.walPayloadBytes
      world.db.writerRequiresReopen) (failure : Option (WriteBoundary × FailureMode)) :
    wp (publishAppended batch receipt failure)
      (fun receipt' world'' => receipt' = receipt ∧ Wrote codec batch world world'' table)
      (fun _ world'' => InDoubt codec batch world world'' table) world' := by
  have happly := (applyOwnedRecovered_eq_ok.mp happlied).2
  have hdoubt : ∀ {w : World} {memtable : Memtable} {next payload : Nat} {boundary : String},
      Appended batch world w memtable next payload (some boundary) →
      memtable = world.db.memtable ∨ memtable = table → InDoubt codec batch world w table :=
    fun hw hmemtable =>
      { toLogged := hw.logged hinv hready happlied hroom hmemtable (by simp)
        closed := by rw [hw.db]; simp }
  unfold publishAppended
  refine wp_then (wp_injectPostAppend _ _) ?_ fun _ _ heq => by
    rw [heq]; exact hdoubt (happended.close _) (Or.inl rfl)
  intro _ _ heq
  rw [heq]
  refine wp_then (wp_injectPostAppend _ _) ?_ fun _ _ heq => by
    rw [heq]; exact hdoubt (happended.close _) (Or.inl rfl)
  intro _ _ heq
  rw [heq, wp_bind]
  -- the table accepts the batch, because it starts right after it and its charge fits
  have hupdated : wp (applyAppended batch receipt)
      (fun _ w => Appended batch world w table (world.db.snapshot + batch.len + 1)
        world.db.walPayloadBytes world.db.writerRequiresReopen)
      (fun _ w => InDoubt codec batch world w table) world' := by
    unfold applyAppended
    rw [wp_bind, wp_get, hfirst, hlast]
    have hmemtable : world'.db.memtable = world.db.memtable := by rw [happended.db]
    rw [hmemtable, happly]
    refine ⟨?_, happended.disk, happended.transactions⟩
    show { world'.db with memtable := table } = _
    rw [happended.db]
  refine wp_mono hupdated ?_ fun _ _ h => h
  intro _ updated hupdated
  rw [wp_bind, wp_modifyDb]
  have hcharged : Appended batch world
      (updated.setDb { updated.db with
        walPayloadBytes := saturatingAdd updated.db.walPayloadBytes batch.encodedLen })
      table (world.db.snapshot + batch.len + 1)
      (saturatingAdd updated.db.walPayloadBytes batch.encodedLen)
      world.db.writerRequiresReopen :=
    ⟨by rw [World.setDb, hupdated.db], hupdated.disk, hupdated.transactions⟩
  refine wp_then (wp_injectPostAppend _ _) ?_ fun _ _ heq => by
    rw [heq]; exact hdoubt (hcharged.close _) (Or.inr rfl)
  rintro _ _ rfl
  refine ⟨rfl, ?_⟩
  exact
    { toLogged := hcharged.logged hinv hready happlied hroom (Or.inr rfl) fun _ => ⟨rfl, rfl⟩
      memtable := by rw [hcharged.db]
      ready := by rw [hcharged.db]; exact hready }

theorem upkeep_offerWriteCompaction (protectedSnapshots : Option (List Nat)) :
    Preserves (Upkeep codec (prunesHistory protectedSnapshots) (sparesSnapshot protectedSnapshots))
      (offerWriteCompaction codec protectedSnapshots) := by
  rw [prunesHistory_eq]
  exact ((preserves_get.bind fun world => upkeep_compactSegmentsInner _ _ _ _ _).bind
    fun _ => preserves_pure _).recover _

theorem upkeep_offerForeground (protectedSnapshots : Option (List Nat)) :
    Preserves (Upkeep codec (prunesHistory protectedSnapshots) (sparesSnapshot protectedSnapshots))
      (offerForeground codec protectedSnapshots) :=
  preserves_get.bind fun _ => Preserves.ite
    ((upkeep_offerWriteCompaction _).bind fun _ => preserves_pure _) (preserves_pure _)

theorem upkeep_flushForWrite (batch : WriteBatch) (charge : MutableCharge)
    (protectedSnapshots : Option (List Nat)) (maintenanceOffered : Bool) :
    Preserves (Upkeep codec (prunesHistory protectedSnapshots) (sparesSnapshot protectedSnapshots))
      (flushForWrite codec batch charge protectedSnapshots maintenanceOffered) := by
  refine preserves_get.bind fun world => Preserves.ite
    (((upkeep_flushMemtableInner _ none).mono fun _ _ h => h.weaken).bind fun flushed => ?_)
    (preserves_pure _)
  cases flushed with
  | none => exact preserves_pure _
  | some _ => exact Preserves.ite (preserves_pure _) (upkeep_offerWriteCompaction _)

theorem silent_checkL0Capacity : Preserves Silent checkL0Capacity :=
  preserves_get.bind fun _ => Preserves.ite (preserves_ofExcept _) (preserves_pure _)

theorem upkeep_makeRoom (batch : WriteBatch) (charge : MutableCharge)
    (protectedSnapshots : Option (List Nat)) :
    Preserves (Upkeep codec (prunesHistory protectedSnapshots) (sparesSnapshot protectedSnapshots))
      (makeRoom codec batch charge protectedSnapshots) :=
  upkeep_reclaimIfPending.bind fun _ => (upkeep_offerForeground _).bind fun _ =>
    (upkeep_flushForWrite _ _ _ _).bind fun _ =>
      (silent_checkL0Capacity.mono fun _ _ hs => hs.upkeep).bind fun _ => upkeep_reclaimIfPending

theorem wp_prepareWrite (hinv : Inv codec world) (batch : WriteBatch) (charge : MutableCharge)
    (protectedSnapshots : Option (List Nat)) :
    wp (prepareWrite codec batch charge protectedSnapshots)
      (fun _ world' => Inv codec world' ∧
        Maintains (prunesHistory protectedSnapshots) (sparesSnapshot protectedSnapshots) world world' ∧
        ∃ total, world'.db.memtable.charge.checkedAdd charge = .ok total ∧
          world'.db.options.mutableLimits.check total = .ok ())
      (fun _ world' => Inv codec world' ∧
        Maintains (prunesHistory protectedSnapshots) (sparesSnapshot protectedSnapshots) world world')
      world := by
  refine (upkeep_makeRoom _ _ _).seq (fun _ _ h => h hinv) fun _ world' h => ?_
  obtain ⟨hinv', hmaintains⟩ := h hinv
  rw [wp_bind, wp_get, wp_bind]
  refine wp_ofExcept ?_ fun _ _ => ⟨hinv', hmaintains⟩
  intro total htotal
  refine wp_ofExcept ?_ fun _ _ => ⟨hinv', hmaintains⟩
  intro _ hcheck
  exact ⟨hinv', hmaintains, total, htotal, hcheck⟩

/-- What a call does to the stored state: maintenance, then possibly one batch,
which is committed, or in the log but not acknowledged. -/
inductive Effect (codec : Codec) (protectedSnapshots : Option (List Nat)) (world : World) :
    List Mutation → List Mutation → World → Prop
  | upkeep {world' : World} : Inv codec world' →
      Maintains (prunesHistory protectedSnapshots) (sparesSnapshot protectedSnapshots)
        world world' → Effect codec protectedSnapshots world [] [] world'
  | wrote {middle world' : World} {batch : WriteBatch} {table : Memtable} :
      world.db.writerRequiresReopen = none → Inv codec middle →
      Maintains (prunesHistory protectedSnapshots) (sparesSnapshot protectedSnapshots)
        world middle → Wrote codec batch middle world' table →
      Effect codec protectedSnapshots world batch.operations [] world'
  | doubt {middle world' : World} {batch : WriteBatch} {table : Memtable} :
      world.db.writerRequiresReopen = none → Inv codec middle →
      Maintains (prunesHistory protectedSnapshots) (sparesSnapshot protectedSnapshots)
        world middle → InDoubt codec batch middle world' table →
      Effect codec protectedSnapshots world [] batch.operations world'

theorem Effect.inv {protectedSnapshots : Option (List Nat)} {committed doubt : List Mutation}
    (h : Effect codec protectedSnapshots world committed doubt world') : Inv codec world' := by
  cases h with
  | upkeep hinv _ => exact hinv
  | wrote _ _ _ hwrote => exact hwrote.inv
  | doubt _ _ _ hdoubt => exact hdoubt.inv

/-- A write is maintenance followed by one appended batch. One that fails commits nothing; its
frame may still be in the log. -/
theorem effect_writeInner (hinv : Inv codec world) (batch : WriteBatch) (durability : Durability)
    (failure : Option (WriteBoundary × FailureMode)) (protectedSnapshots : Option (List Nat)) :
    wp (writeInner codec batch durability failure protectedSnapshots)
      (fun receipt world' => receipt.firstSequence = world.db.snapshot + 1 ∧
        Effect codec protectedSnapshots world batch.operations [] world')
      (fun _ world' => ∃ doubt, (doubt = [] ∨ doubt = batch.operations) ∧
        Effect codec protectedSnapshots world [] doubt world') world := by
  have hupkept : ∀ {w : World}, Inv codec w ∧ Maintains (prunesHistory protectedSnapshots)
      (sparesSnapshot protectedSnapshots) world w → ∃ doubt,
      (doubt = [] ∨ doubt = batch.operations) ∧ Effect codec protectedSnapshots world [] doubt w :=
    fun h => ⟨[], Or.inl rfl, .upkeep h.1 h.2⟩
  have hsame := hupkept ⟨hinv, Std.Refl.refl world⟩
  unfold writeInner
  rw [wp_bind]
  refine wp_ensureWriterReady ?_ fun _ _ => hsame
  intro hready
  refine wp_ofExcept_bind (fun _ _ => hsame) fun charge hcharge => ?_
  rw [wp_bind, wp_get, wp_bind]
  refine wp_ofExcept ?_ fun _ _ => hsame
  intro _ _
  refine wp_then (wp_prepareWrite hinv _ _ _) ?_ fun _ _ => hupkept
  rintro _ prepared ⟨hprepared, hmaintains, total, htotal, hcheck⟩
  have hupkeep : ∀ {w : World}, Silent prepared w → Inv codec w ∧ Maintains
      (prunesHistory protectedSnapshots) (sparesSnapshot protectedSnapshots) world w := by
    intro w hs
    have hg : Grows codec prepared w := hs.grows
    exact ⟨hprepared.of_grows hg, hmaintains.trans hg.maintains⟩
  refine silent_admitRetention.seq (fun _ _ hs => hupkept (hupkeep hs))
    fun _ admitted hadmitted => ?_
  refine (silent_injectAt _ _ _).seq (fun _ _ hs => hupkept (hupkeep (hadmitted.trans hs)))
    fun _ middle hs => ?_
  have hmiddle : Silent prepared middle := hadmitted.trans hs
  obtain ⟨hinv', hmaintains'⟩ := hupkeep hmiddle
  have hready' : middle.db.writerRequiresReopen = none := by rw [hmaintains'.reopen, hready]
  obtain ⟨-, hhead, hnext⟩ := hinv'.log_ready hready'
  refine wp_then (wp_appendWriteBatch batch durability hnext) ?_ fun _ _ hs =>
    hupkept (hupkeep (hmiddle.trans hs))
  rintro receipt appended ⟨hfirst, hlast, hroom, happended⟩
  -- the admitted charge is the one a replay of the frame would compute
  have hfits : ∃ table, middle.db.memtable.applyOwnedRecovered batch (middle.db.snapshot + 1)
      (middle.db.snapshot + batch.len) middle.db.options.mutableLimits = .ok table := by
    have hlen := batch.len_pos
    rw [hmiddle.db] at hhead hroom ⊢
    have hfirst : prepared.db.snapshot + 1 = saturatingAdd prepared.db.memtable.maximumSequence 1 :=
      (Nat.min_eq_left hhead).symm
    have hlast : checkedAdd (prepared.db.snapshot + 1) (batch.len - 1) =
        some (prepared.db.snapshot + batch.len) := by
      rw [checkedAdd, if_pos (by omega)]
      congr 1
      omega
    obtain ⟨table, htable⟩ := Memtable.applyWriteBatch_ok hfirst hlast hcharge htotal
    exact ⟨table, applyOwnedRecovered_eq_ok.mpr ⟨⟨charge, total, hcharge, htotal, hcheck⟩, htable⟩⟩
  obtain ⟨table, htable⟩ := hfits
  refine wp_mono (wp_publishAppended hinv' hready' htable hroom hfirst hlast happended failure) ?_ ?_
  · rintro receipt' world' ⟨rfl, hwrote⟩
    exact ⟨by rw [hfirst, hmaintains'.head], .wrote hready hinv' hmaintains' hwrote⟩
  · exact fun _ _ hdoubt => ⟨_, Or.inr rfl, .doubt hready hinv' hmaintains' hdoubt⟩

end Rrflow.Lsm

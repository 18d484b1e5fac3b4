import Rrflow.Lsm.WriteSpec

/-!
Transactions. Beginning, staging and ending one changes only the registry of
snapshots; a commit is a conflict check followed by a write. The conflict check
looks at the newest version of each written key that is still physically there.
-/

namespace Rrflow.Lsm

open Eff Latest List SortedMap VersionedValue

variable {codec : Codec}

variable {world world' : World}

/-! ### The registries -/

/-- Only the registries of transactions, read views and checkpoints changed. -/
structure Registers (world world' : World) : Prop where
  db : world'.db =
    { world.db with
      transactionSnapshots := world'.db.transactionSnapshots
      activeReadViews := world'.db.activeReadViews }
  disk : world'.disk = { world.disk with checkpoints := world'.disk.checkpoints }

theorem Registers.refl (world : World) : Registers world world := ⟨rfl, rfl⟩

theorem Inv.of_registers (h : Inv codec world) (hr : Registers world world')
    (howners : ∀ id transaction, world'.transactions.find? id = some transaction →
      transaction.owner = world.db.owner ∧ transaction.snapshot ≤ world.db.snapshot)
    (hpins : world'.db.transactionSnapshots.pins.Perm
      (world'.transactions.values.map Transaction.snapshot)) : Inv codec world' := by
  have hdb := hr.db
  have hdisk := hr.disk
  constructor
  · rw [hdb]; exact h.options
  · rw [hdb]; exact ⟨h.coherent.table, h.coherent.settled, h.coherent.distinct, h.coherent.index⟩
  · rw [hdb]; exact h.valid
  · rw [hdb]; exact h.described
  · rw [hdb]; exact h.walStart
  · rw [hdb]; exact h.walAfter
  · rw [hdb, hdisk]; exact h.current
  · rw [hdb, hdisk]; exact h.stored
  · rw [hdb, hdisk]; exact h.present
  · rw [hdisk]; exact h.filed
  · rw [hdb, hdisk]; exact h.opened
  · rw [hdb, hdisk]; exact h.unused
  · rw [World.logTable, hdb, hdisk]; exact h.log
  · rw [hdb]; exact howners
  · exact hpins

/-- Only the registries of read views and checkpoints changed. -/
structure Retains (world world' : World) : Prop where
  db : world'.db = { world.db with activeReadViews := world'.db.activeReadViews }
  disk : world'.disk = { world.disk with checkpoints := world'.disk.checkpoints }
  transactions : world'.transactions = world.transactions

instance : Std.Refl Retains := ⟨fun _ => ⟨rfl, rfl, rfl⟩⟩

instance : IsTrans World Retains where
  trans _ _ _ h h' :=
    { db := by rw [h'.db, h.db]
      disk := by rw [h'.disk, h.disk]
      transactions := h'.transactions.trans h.transactions }

theorem Silent.retains (h : Silent world world') : Retains world world' := by
  constructor <;> simp [h.db, h.disk, h.transactions]

theorem Retains.registers (h : Retains world world') :
    Registers world world' where
  db := by rw [h.db]
  disk := h.disk

theorem Inv.of_retains (h : Inv codec world) (hr : Retains world world') : Inv codec world' := by
  refine h.of_registers hr.registers ?_ ?_
  · rw [hr.transactions]
    exact h.owners
  · rw [hr.transactions, hr.db]
    exact h.pins

theorem retains_checkpoint (name : Bytes) (createdAt : Nat) :
    Preserves Retains (checkpoint codec name createdAt) := by
  refine preserves_get.bind fun world => ?_
  refine ((silent_loadManifestBounded _ _).mono fun _ _ => Silent.retains).bind fun loaded => ?_
  refine Preserves.ite (preserves_fail _) ?_
  split
  · refine ((silent_readMetadata _ _).mono fun _ _ => Silent.retains).bind fun _ => ?_
    exact Preserves.ite (preserves_fail _) (preserves_pure _)
  · refine Preserves.ite (preserves_fail _) ?_
    refine (silent_admitDisk.mono fun _ _ => Silent.retains).bind fun _ => ?_
    exact Preserves.bind (fun _ => ⟨rfl, rfl, rfl⟩) fun _ => preserves_pure _

theorem retains_releaseCheckpoint (name : Bytes) : Preserves Retains (releaseCheckpoint name) := by
  refine preserves_get.bind fun world => Preserves.ite (preserves_fail _) ?_
  refine Preserves.ite (preserves_pure _) ?_
  exact Preserves.bind (fun _ => ⟨rfl, rfl, rfl⟩) fun _ => preserves_pure _

theorem find?_freshHandle (transactions : SortedMap Nat Transaction) :
    transactions.find? (freshHandle transactions) = none := by
  rw [find?_eq_none_iff, freshHandle]
  have h : ∀ (l : List Nat), ∀ id ∈ l, id < l.foldr (fun id next => max (id + 1) next) 0 := by
    intro l
    induction l with
    | nil => simp
    | cons first rest ih =>
      intro id hid
      rw [foldr_cons]
      rcases mem_cons.mp hid with rfl | hid
      · omega
      · have := ih id hid
        omega
  intro hmem
  exact lt_irrefl _ (h _ _ hmem)

theorem values_perm_of_toList {m n : SortedMap Nat Transaction} {entry : Nat × Transaction}
    (h : m.toList.Perm (entry :: n.toList)) :
    (m.values.map Transaction.snapshot).Perm
      (entry.2.snapshot :: n.values.map Transaction.snapshot) := by
  have := (h.map Prod.snd).map Transaction.snapshot
  simpa [values] using this

theorem wp_beginTransaction (hinv : Inv codec world) :
    wp beginTransaction
      (fun id world' => Inv codec world' ∧ Registers world world' ∧
        world'.db.transactionSnapshots.pins =
          world.db.snapshot :: world.db.transactionSnapshots.pins ∧
        ∃ transaction, transaction.snapshot = world.db.snapshot ∧
          world'.transactions = world.transactions.insert id transaction)
      (fun _ world' => world' = world) world := by
  unfold beginTransaction
  rw [wp_bind, wp_get]
  rw [wp_ite]
  split
  · rfl
  · rw [wp_bind, wp_modify]
    have hfresh := find?_freshHandle world.transactions
    refine ⟨?_, ⟨rfl, rfl⟩, rfl, _, rfl, rfl⟩
    refine hinv.of_registers ⟨rfl, rfl⟩ ?_ ?_
    · intro id transaction hfind
      rcases eq_or_find?_of_insert hfind with ⟨-, rfl⟩ | hfind
      · exact ⟨rfl, le_rfl⟩
      · exact hinv.owners id transaction hfind
    · have hperm := values_perm_of_toList (toList_insert_perm world.transactions
        (freshHandle world.transactions)
        { snapshot := world.db.snapshot, writes := ∅, writeSize := {}, bufferedBytes := 0
          owner := world.db.owner })
      rw [erase_of_find?_eq_none hfresh] at hperm
      exact (List.Perm.cons _ hinv.pins).trans hperm.symm

/-- Staging changes the write set of one transaction and no snapshot. -/
theorem wp_stage (hinv : Inv codec world) (id : Nat) (key : Bytes) (value : Option Bytes) :
    wp (stage id key value)
      (fun _ world' => Inv codec world' ∧ Registers world world' ∧
        world'.db.transactionSnapshots.pins = world.db.transactionSnapshots.pins)
      (fun _ world' => world' = world) world := by
  unfold stage
  rw [wp_bind, wp_get]
  cases hfind : world.transactions.find? id with
  | none => rfl
  | some transaction =>
    refine wp_ofExcept_bind (fun _ _ => rfl) fun size _ => ?_
    refine wp_ofExcept_bind (fun _ _ => rfl) fun old _ => ?_
    refine wp_ofExcept_bind (fun _ _ => rfl) fun replacement _ => ?_
    refine wp_ofExcept_bind (fun _ _ => rfl) fun next _ => ?_
    refine wp_ofExcept_bind (fun _ _ => rfl) fun bytes _ => ?_
    rw [wp_modify]
    obtain ⟨howner, hle⟩ := hinv.owners id transaction hfind
    refine ⟨hinv.of_registers ⟨rfl, rfl⟩ ?_ ?_, ⟨rfl, rfl⟩, rfl⟩
    · intro id' transaction' hfind'
      rcases eq_or_find?_of_insert hfind' with ⟨-, rfl⟩ | hfind'
      · exact ⟨howner, hle⟩
      · exact hinv.owners id' transaction' hfind'
    · have hold := values_perm_of_toList (toList_perm_erase hfind)
      have hnew := values_perm_of_toList (toList_insert_perm world.transactions id
        { transaction with
          writes := transaction.writes.insert key value
          writeSize := size
          bufferedBytes := next })
      exact (hinv.pins.trans hold).trans hnew.symm

/-- The end of a transaction releases its own pin and no other. -/
theorem releaseTransaction_spec (hinv : Inv codec world) (id : Nat) :
    Inv codec (releaseTransaction id world).2 ∧ Registers world (releaseTransaction id world).2 ∧
      ∀ s ∈ (releaseTransaction id world).2.db.transactionSnapshots.pins,
        s ∈ world.db.transactionSnapshots.pins := by
  simp only [releaseTransaction, Eff.modify]
  cases hfind : world.transactions.find? id with
  | none =>
    exact ⟨hinv, Registers.refl world, fun s hs => hs⟩
  | some transaction =>
    obtain ⟨howner, -⟩ := hinv.owners id transaction hfind
    dsimp only
    rw [if_pos howner]
    refine ⟨hinv.of_registers ⟨rfl, rfl⟩ ?_ ?_, ⟨rfl, rfl⟩, fun s hs => mem_of_mem_erase hs⟩
    · intro id' transaction' hfind'
      have hfind' : (world.transactions.erase id).find? id' = some transaction' := hfind'
      rw [find?_erase] at hfind'
      split at hfind'
      · simp at hfind'
      · exact hinv.owners id' transaction' hfind'
    · have hold := values_perm_of_toList (toList_perm_erase hfind)
      have h := (hinv.pins.trans hold).erase transaction.snapshot
      rwa [erase_cons_head] at h

theorem foldl_getSequence {key : Bytes} {s : Nat} (segments : List Segment)
    {seen : List VersionedValue} {o : Option VersionedValue}
    (h : IsLatest sequence s seen o) :
    ∃ o', IsLatest sequence s (seen ++ chainsOf segments key) o' ∧
      segments.foldl (fun latest segment =>
        match segment.content.getSequence key s with
        | some found => if latest.all (fun latest => latest < found) then some found else latest
        | none => latest) (o.map sequence) = o'.map sequence := by
  induction segments generalizing seen o with
  | nil => exact ⟨o, by simpa [chainsOf] using h, rfl⟩
  | cons segment rest ih =>
    have hsegment := segment.content.isLatest_getVersion key s
    have hboth := h.append hsegment
    obtain ⟨o', ho', hfold⟩ := ih hboth
    refine ⟨o', ?_, ?_⟩
    · have happend : chainsOf (segment :: rest) key =
          segment.content.chain key ++ chainsOf rest key := rfl
      rwa [happend, ← append_assoc]
    · rw [foldl_cons, ← hfold, SegmentContent.getSequence_eq]
      congr 1
      cases hv : segment.content.getVersion key s with
      | none => cases o <;> rfl
      | some v =>
        cases o with
        | none => rfl
        | some u =>
          simp only [Option.map_some, newer, Option.all_some, decide_eq_true_eq]
          split <;> rfl

theorem Database.Coherent.latestSequenceForKey_eq {db : Database} (h : db.Coherent codec)
    (key : Bytes) :
    db.latestSequenceForKey key = (db.versionAt key db.snapshot).map sequence := by
  unfold Database.latestSequenceForKey
  cases htable : db.memtable.getVersion key db.snapshot with
  | some version => rw [h.versionAt_of_table htable, Option.map_some]
  | none =>
    obtain ⟨o, ho, hfold⟩ := foldl_getSequence db.segments (isLatest_nil sequence db.snapshot)
    rw [h.versionAt_of_segments htable ho]
    exact hfold

theorem Database.Coherent.findConflict_eq_none {db : Database} (h : db.Coherent codec)
    {snapshot : Nat} {keys : List Bytes} :
    db.findConflict snapshot keys = none ↔
      ∀ key ∈ keys, ∀ v, db.versionAt key db.snapshot = some v → v.sequence ≤ snapshot := by
  unfold Database.findConflict
  rw [findSome?_eq_none_iff]
  refine forall₂_congr fun key _ => ?_
  rw [h.latestSequenceForKey_eq]
  cases db.versionAt key db.snapshot with
  | none => simp
  | some v => simp

def TransactionCommit.entries (commit : TransactionCommit) (transaction : Transaction) :
    List Entry :=
  commit.receipt.elim [] fun receipt =>
    stampOperations receipt.firstSequence transaction.takeMutations

theorem WriteBatch.new_operations {operations : List Mutation} {batch : WriteBatch}
    (h : WriteBatch.new operations = .ok batch) : batch.operations = operations := by
  unfold WriteBatch.new at h
  split at h
  · cases h
    rfl
  · simp at h

/-- A commit that succeeds had an open writer and found no newer version of a key
it writes. -/
theorem effect_commitTransactionInner (hinv : Inv codec world) (transaction : Transaction)
    (durability : Durability) (failure : Option (WriteBoundary × FailureMode))
    (protectedSnapshots : Option (List Nat)) :
    wp (commitTransactionInner codec transaction durability failure protectedSnapshots)
      (fun commit world' => world.db.writerRequiresReopen = none ∧
        (∀ key ∈ transaction.writes.keys, ∀ v, world.db.versionAt key world.db.snapshot = some v →
          v.sequence ≤ transaction.snapshot) ∧
        commit.entries transaction =
          stampOperations (world.db.snapshot + 1) transaction.takeMutations ∧
        Effect codec protectedSnapshots world transaction.takeMutations [] world')
      (fun _ world' => ∃ doubt, (doubt = [] ∨ doubt = transaction.takeMutations) ∧
        Effect codec protectedSnapshots world [] doubt world') world := by
  have hnothing : Effect codec protectedSnapshots world [] [] world :=
    .upkeep hinv (Std.Refl.refl world)
  unfold commitTransactionInner
  rw [wp_bind]
  refine wp_ensureWriterReady ?_ fun _ _ => ⟨[], Or.inl rfl, hnothing⟩
  intro hready
  rw [wp_bind, wp_get, wp_ite]
  split
  · exact ⟨[], Or.inl rfl, hnothing⟩
  · cases hconflict : world.db.findConflict transaction.snapshot transaction.writes.keys with
    | some sequence => exact ⟨[], Or.inl rfl, hnothing⟩
    | none =>
      have hnone := hinv.coherent.findConflict_eq_none.mp hconflict
      rw [wp_ite]
      split
      · next hempty =>
          have hnil : transaction.takeMutations = [] := by
            rw [Transaction.takeMutations, length_eq_zero_iff.mp hempty]
            rfl
          rw [hnil]
          exact ⟨hready, hnone, rfl, hnothing⟩
      · refine wp_ofExcept_bind (fun _ _ => ⟨[], Or.inl rfl, hnothing⟩) fun batch hbatch => ?_
        rw [wp_bind, ← WriteBatch.new_operations hbatch]
        refine wp_mono (effect_writeInner hinv _ _ _ _) ?_ fun _ _ h => h
        rintro receipt world' ⟨hfirst, heffect⟩
        refine ⟨hready, hnone, ?_, heffect⟩
        rw [TransactionCommit.entries, Option.elim_some, hfirst, WriteBatch.new_operations hbatch]

/-- The transaction is released after its commit, whatever the outcome. -/
theorem wp_commitTransaction {id : Nat} {durability : Durability}
    {failure : Option (WriteBoundary × FailureMode)} {protectedSnapshots : Option (List Nat)}
    {Q : TransactionCommit → World → Prop} {E : Error → World → Prop}
    (hnone : world.transactions.find? id = none → ∀ e, E e world)
    (hsome : ∀ transaction, world.transactions.find? id = some transaction →
      wp (commitTransactionInner codec transaction durability failure protectedSnapshots)
        (fun commit middle => Q commit (releaseTransaction id middle).2)
        (fun e middle => E e (releaseTransaction id middle).2) world) :
    wp (commitTransaction codec id durability failure protectedSnapshots) Q E world := by
  unfold commitTransaction wp
  dsimp only
  cases hfind : world.transactions.find? id with
  | none => exact hnone hfind _
  | some transaction =>
    have hinner := hsome transaction hfind
    unfold wp at hinner
    rcases hrun : commitTransactionInner codec transaction durability failure protectedSnapshots
      world with ⟨outcome, middle⟩
    rw [hrun] at hinner
    simp only [hrun]
    cases outcome <;> exact hinner

end Rrflow.Lsm

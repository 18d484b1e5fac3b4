import Rrflow.Lsm.Calls

/-!
Reads against history.

A run is judged by the list of mutations it committed: a read of a key at a
sequence should return the value of the newest mutation of the key at or before
it. Physically the database holds less, because compaction drops versions that
no live snapshot can see. `Agrees` relates the two at one snapshot, a write and
a step of maintenance keep it, and the snapshots for which it is kept over a
whole run are the live ones.
-/

namespace Rrflow.Lsm

open Eff Latest List SortedMap VersionedValue

variable {codec : Codec}

variable {world world' : World} {entries : List Entry} {s last : Nat} {db : Database}
  {batch : WriteBatch} {table : Memtable} {protectedSnapshots : Option (List Nat)}
  {committed doubt : List Mutation} {events : List Event} {event : Event}

theorem inv_create {options : DatabaseOptions} {format : Option Nat} {disk : Disk}
    (readings : List Nat) (denials : List (Option (Nat × Nat × Nat)))
    (h : create codec options format = .ok (db, disk)) :
    Inv codec { db, disk, transactions := ∅, readings, denials } ∧ db.snapshot = 0 ∧
      db.writerRequiresReopen = none ∧ ∀ key, db.held key = [] := by
  simp only [create, Checks.unless_eq_ok, Checks.bind_eq_ok] at h
  obtain ⟨-, _, hoptions, manifest, hmanifest, hcreated⟩ := h
  cases hcreated
  obtain ⟨hvalid, rfl⟩ := newManifest_eq_ok hmanifest
  refine ⟨?_, rfl, rfl, fun key => rfl⟩
  constructor
  case options => exact hoptions
  case coherent =>
    exact ⟨Memtable.ordered_atSequence 0, fun _ _ => nofun, fun _ => nodup_nil, rfl⟩
  case valid => exact hvalid
  case described => rfl
  case walStart => rfl
  case walAfter => rfl
  case current => rfl
  case stored => exact find?_insert_self ..
  case present => intro segment hsegment; cases hsegment
  case filed => intro id content hfind; cases hfind
  case opened => rw [find?_insert_self]; rfl
  case unused =>
    intro start frames _ hfind
    rcases eq_or_find?_of_insert hfind with ⟨-, rfl⟩ | hfind
    · rfl
    · cases hfind
  case log =>
    refine ⟨.atSequence 0, ?_, by decide, fun _ => ⟨rfl, rfl⟩⟩
    rw [World.logTable, find?_insert_self]
    rfl
  case owners => intro id transaction hfind; cases hfind
  case pins => exact List.Perm.refl _

/-! ### One snapshot -/

theorem Stays.prune {prune : Bool} {before after : List VersionedValue}
    (h : Stays prune s before after) : Stays true s before after :=
  h.imp_right fun hdropped => ⟨rfl, hdropped.2⟩

/-- At `s` the database shows what the history says, up to a tombstone that
compaction has dropped. -/
def Agrees (entries : List Entry) (db : Database) (s : Nat) : Prop :=
  ∀ key, Stays true s (chainOf key entries) (db.held key)

/-- All mutations of a history are at or before `head`. -/
def Within (entries : List Entry) (head : Nat) : Prop := ∀ entry ∈ entries, entry.2.sequence ≤ head

theorem Agrees.value_eq (h : Agrees entries db s) (key : Bytes) :
    db.valueAt key s = (latest sequence s (chainOf key entries)).bind value :=
  (h key).value_eq

theorem Agrees.maintains {prune : Bool} {safe : Nat → Prop} (h : Agrees entries world.db s)
    (hmaintains : Maintains prune safe world world')
    (hs : safe s ∨ s ∈ world.db.transactionSnapshots.pins ∨ world.db.snapshot ≤ s) :
    Agrees entries world'.db s :=
  fun key => (h key).trans (hmaintains.stays key s hs).prune

theorem held_applied {first : Nat} (h : db.memtable.applyWriteBatch batch first last = .ok table)
    (key : Bytes) :
    (Database.held { db with memtable := table } key).Perm
      (db.held key ++ chainOf key (stampOperations first batch.operations)) := by
  obtain ⟨-, -, -, -, -, hversions⟩ := Memtable.applyWriteBatch_eq_ok h
  rw [Database.held_eq, Database.held_eq, Memtable.chain_insertEntries _ _ _ _ hversions,
    append_assoc, append_assoc]
  exact List.Perm.append_left _ perm_append_comm

theorem Database.Coherent.held_le (h : db.Coherent codec) {key : Bytes} {v : VersionedValue}
    (hv : v ∈ db.held key) : v.sequence ≤ db.snapshot := by
  rw [Database.held_eq, mem_append] at hv
  rcases hv with hv | hv
  · exact (h.table.within key v hv).2
  · exact (h.settled key v hv).trans h.table.le

theorem le_sequence_of_stamped {first : Nat} {operations : List Mutation} {key : Bytes}
    {v : VersionedValue} (hv : v ∈ chainOf key (stampOperations first operations)) :
    first ≤ v.sequence :=
  (mem_stampOperations (mem_chainOf.mp hv)).1

theorem chainOf_increasing (key : Bytes)
    (h : entries.Pairwise (fun a b => a.2.sequence < b.2.sequence)) :
    (chainOf key entries).Pairwise (fun a b => a.sequence < b.sequence) := by
  refine List.Pairwise.filterMap _ ?_ h
  intro a b hab v hv w hw
  split at hv <;> split at hw <;> simp_all

/-- After a batch, a read sees the newest version in the batch, if there is one. -/
theorem Database.Coherent.latest_held_applied (h : db.Coherent codec)
    (happlied : db.memtable.applyWriteBatch batch (db.snapshot + 1) last = .ok table) (key : Bytes)
    (s : Nat) :
    latest sequence s (Database.held { db with memtable := table } key) =
      (latest sequence s
        (chainOf key (stampOperations (db.snapshot + 1) batch.operations))).or
        (latest sequence s (db.held key)) := by
  have hlt : ∀ u ∈ db.held key,
      ∀ v ∈ chainOf key (stampOperations (db.snapshot + 1) batch.operations),
        u.sequence < v.sequence :=
    fun u hu v hv => (h.held_le hu).trans_lt (le_sequence_of_stamped hv)
  have hnodup : ((db.held key ++ chainOf key
      (stampOperations (db.snapshot + 1) batch.operations)).map sequence).Nodup := by
    rw [map_append]
    refine List.Nodup.append (h.nodup_held key) ?_ ?_
    · rw [List.Nodup, pairwise_map]
      exact (chainOf_increasing key (stampOperations_pairwise _ _)).imp fun hlt => hlt.ne
    · intro n hn hn'
      obtain ⟨u, hu, rfl⟩ := mem_map.mp hn
      obtain ⟨v, hv, heq⟩ := mem_map.mp hn'
      exact absurd heq (hlt u hu v hv).ne'
  rw [← latest_append_of_lt hlt, latest_perm hnodup (held_applied happlied key).symm]

theorem Within.latest_applied {head : Nat} (h : Within entries head) (batch : WriteBatch)
    (key : Bytes) (s : Nat) :
    latest sequence s
        (chainOf key (entries ++ stampOperations (head + 1) batch.operations)) =
      (latest sequence s
        (chainOf key (stampOperations (head + 1) batch.operations))).or
        (latest sequence s (chainOf key entries)) := by
  rw [chainOf_append]
  exact latest_append_of_lt fun u hu v hv =>
    (h _ (mem_chainOf.mp hu)).trans_lt (le_sequence_of_stamped hv)

theorem Agrees.applied (h : Agrees entries db s) (hcoherent : db.Coherent codec)
    (hwithin : Within entries db.snapshot)
    (happlied : db.memtable.applyWriteBatch batch (db.snapshot + 1) last = .ok table) :
    Agrees (entries ++ stampOperations (db.snapshot + 1) batch.operations)
      { db with memtable := table } s := by
  intro key
  unfold Stays
  rw [hcoherent.latest_held_applied happlied, hwithin.latest_applied]
  cases latest sequence s (chainOf key (stampOperations (db.snapshot + 1) batch.operations)) with
  | some v => exact Or.inl rfl
  | none =>
    rw [Option.none_or, Option.none_or]
    exact h key

theorem Within.applied {head : Nat} (h : Within entries head) (batch : WriteBatch) :
    Within (entries ++ stampOperations (head + 1) batch.operations) (head + batch.len) := by
  intro entry hentry
  rcases mem_append.mp hentry with hentry | hentry
  · exact (h entry hentry).trans (Nat.le_add_right ..)
  · have hlt := (mem_stampOperations hentry).2
    rw [← WriteBatch.len] at hlt
    omega

/-- The state after a batch was applied: the table is the new one, and the rest
of what readers see is as before. -/
theorem Wrote.db_eq (h : Wrote codec batch world world' table) (key : Bytes) :
    world'.db.held key = Database.held { world.db with memtable := table } key := by
  rw [Database.held_eq, Database.held_eq, h.memtable, Database.segmentHeld, h.segments]
  rfl

theorem Wrote.head_eq (h : Wrote codec batch world world' table) :
    world'.db.snapshot = world.db.snapshot + batch.len := by
  rw [Database.snapshot, h.memtable]
  exact (Memtable.applyWriteBatch_eq_ok h.applied).2.2.2.1

/-- A writer that is still open was open before. -/
theorem Effect.ready (h : Effect codec protectedSnapshots world committed doubt world')
    (hready : world'.db.writerRequiresReopen = none) :
    world.db.writerRequiresReopen = none := by
  cases h with
  | upkeep _ hmaintains => exact hmaintains.reopen.symm.trans hready
  | wrote hopen _ _ _ => exact hopen
  | doubt _ _ _ hdoubt => exact absurd hready hdoubt.closed

theorem Stepped.ready (h : Stepped codec event world')
    (hready : world'.db.writerRequiresReopen = none) :
    event.before.db.writerRequiresReopen = none := by
  obtain ⟨middle, committed, doubt, heffect, hregisters, -⟩ := h.effect
  rw [hregisters.db] at hready
  exact heffect.ready hready

theorem Effect.stays_ready (h : Effect codec protectedSnapshots world committed doubt world')
    (hready : world.db.writerRequiresReopen = none) (hnone : doubt = []) :
    world'.db.writerRequiresReopen = none := by
  cases h with
  | upkeep _ hmaintains => exact hmaintains.reopen.trans hready
  | wrote _ _ _ hwrote => exact hwrote.ready
  | @doubt _ _ batch _ _ _ _ _ =>
    have hpos := batch.len_pos
    rw [WriteBatch.len, hnone] at hpos
    exact absurd hpos (lt_irrefl 0)

/-- A call that leaves the writer open extends the history by what it committed,
at every snapshot that it spares. -/
theorem Effect.agrees (heffect : Effect codec protectedSnapshots world committed doubt world')
    (hready : world'.db.writerRequiresReopen = none) (h : Agrees entries world.db s)
    (hwithin : Within entries world.db.snapshot)
    (hs : sparesSnapshot protectedSnapshots s ∨ s ∈ world.db.transactionSnapshots.pins ∨
      world.db.snapshot ≤ s) :
    Agrees (entries ++ stampOperations (world.db.snapshot + 1) committed) world'.db s := by
  cases heffect with
  | upkeep _ hmaintains =>
    rw [stampOperations, append_nil]
    exact h.maintains hmaintains hs
  | wrote _ hmiddle hmaintains hwrote =>
    rw [← hmaintains.head] at hwithin ⊢
    have happlied := (h.maintains hmaintains hs).applied hmiddle.coherent hwithin hwrote.applied
    intro key
    rw [hwrote.db_eq key]
    exact happlied key
  | doubt _ _ _ hdoubt => exact absurd hready hdoubt.closed

theorem Effect.within (heffect : Effect codec protectedSnapshots world committed doubt world')
    (hready : world'.db.writerRequiresReopen = none) (hwithin : Within entries world.db.snapshot) :
    Within (entries ++ stampOperations (world.db.snapshot + 1) committed) world'.db.snapshot ∧
      world.db.snapshot ≤ world'.db.snapshot := by
  cases heffect with
  | upkeep _ hmaintains =>
    rw [stampOperations, append_nil, hmaintains.head]
    exact ⟨hwithin, le_rfl⟩
  | wrote _ _ hmaintains hwrote =>
    rw [hwrote.head_eq, hmaintains.head]
    exact ⟨hwithin.applied _, Nat.le_add_right ..⟩
  | doubt _ _ _ hdoubt => exact absurd hready hdoubt.closed

/-! ### Runs -/

theorem history_concat (events : List Event) (event : Event) :
    history (events ++ [event]) = history events ++ event.committed := by
  simp [history]

/-- A snapshot that reads may still use. -/
def Live (events : List Event) (world : World) (s : Nat) : Prop :=
  s ∈ world.db.transactionSnapshots.pins ∨ Shielded events s ∨ world.db.snapshot ≤ s

/-- A snapshot shielded after a call was the head before it, or was shielded and
spared by it. -/
theorem Shielded.of_concat (h : Shielded (events ++ [event]) s) :
    event.before.db.snapshot = s ∨ Shielded events s ∧ sparesSnapshot event.pruned s := by
  obtain ⟨past, start, future, hsplit, hhead, hfuture⟩ := h
  induction future using List.reverseRecOn with
  | nil =>
    obtain ⟨-, rfl⟩ := append_singleton_inj.mp hsplit
    exact Or.inl hhead
  | append_singleton future last _ =>
    rw [← cons_append, ← append_assoc] at hsplit
    obtain ⟨rfl, rfl⟩ := append_singleton_inj.mp hsplit
    refine Or.inr ⟨⟨past, start, future, rfl, hhead, fun later hlater =>
      hfuture later (mem_append_left _ hlater)⟩, ?_⟩
    cases hpruned : event.pruned with
    | none => exact Or.inl rfl
    | some snapshots => exact Or.inr (hfuture event (by simp) snapshots hpruned)

/-- A snapshot that is live after a call was live before it, and the call spared
it. -/
theorem Live.of_concat (h : Live (events ++ [event]) world' s)
    (hpins : ∀ t ∈ world'.db.transactionSnapshots.pins,
      t ∈ event.before.db.transactionSnapshots.pins ∨ t = event.before.db.snapshot)
    (hhead : event.before.db.snapshot ≤ world'.db.snapshot) :
    Live events event.before s ∧
      (sparesSnapshot event.pruned s ∨ s ∈ event.before.db.transactionSnapshots.pins ∨
        event.before.db.snapshot ≤ s) := by
  rcases h with hpin | hshielded | hle
  · rcases hpins s hpin with hpin | rfl
    · exact ⟨Or.inl hpin, Or.inr (Or.inl hpin)⟩
    · exact ⟨Or.inr (Or.inr le_rfl), Or.inr (Or.inr le_rfl)⟩
  · rcases hshielded.of_concat with rfl | ⟨hshielded, hspared⟩
    · exact ⟨Or.inr (Or.inr le_rfl), Or.inr (Or.inr le_rfl)⟩
    · exact ⟨Or.inr (Or.inl hshielded), Or.inl hspared⟩
  · exact ⟨Or.inr (Or.inr (hhead.trans hle)), Or.inr (Or.inr (hhead.trans hle))⟩

/-- What holds in every state of a run: as long as the writer is open, live
snapshots show the history. -/
structure Tracked (codec : Codec) (events : List Event) (world : World) : Prop where
  inv : Inv codec world
  within : world.db.writerRequiresReopen = none → Within (history events) world.db.snapshot
  agrees : world.db.writerRequiresReopen = none → ∀ s, Live events world s →
    Agrees (history events) world.db s

theorem Tracked.step {events : List Event} {event : Event} {world' : World}
    (h : Tracked codec events event.before) (hstep : Stepped codec event world') :
    Tracked codec (events ++ [event]) world' := by
  obtain ⟨middle, committed, doubt, heffect, hregisters, hcommitted, -⟩ := hstep.effect
  have hreopen : world'.db.writerRequiresReopen = middle.db.writerRequiresReopen := by
    rw [hregisters.db]
  have hhead : world'.db.snapshot = middle.db.snapshot := by
    rw [Database.snapshot, hregisters.db]
    rfl
  have hheld : ∀ key, world'.db.held key = middle.db.held key := by
    intro key
    rw [hregisters.db]
    rfl
  refine ⟨hstep.inv, fun hready => ?_, fun hready s hs => ?_⟩
  · rw [hreopen] at hready
    rw [history_concat, hcommitted, hhead]
    exact (heffect.within hready (h.within (heffect.ready hready))).1
  · rw [hreopen] at hready
    have hopen := heffect.ready hready
    have hmonotone := (heffect.within hready (h.within hopen)).2
    obtain ⟨hlive, hspared⟩ := hs.of_concat hstep.pins (hhead ▸ hmonotone)
    intro key
    rw [history_concat, hcommitted, hheld key]
    exact heffect.agrees hready (h.agrees hopen s hlive) (h.within hopen) hspared key

theorem Trace.tracked (h : Trace codec events world) : Tracked codec events world := by
  induction h with
  | create readings denials hcreate =>
    obtain ⟨hinv, -, -, hheld⟩ := inv_create readings denials hcreate
    refine ⟨hinv, fun _ entry hentry => ?_, fun _ s _ key => ?_⟩
    · simp [history] at hentry
    · rw [hheld key]
      exact Stays.refl ..
  | step _ hrun ih => exact ih.step (stepped_of_run ih.inv hrun)

theorem Trace.ready (h : Trace codec events world) (hok : ∀ event ∈ events, event.outcome.isOk) :
    world.db.writerRequiresReopen = none := by
  induction h with
  | create readings denials hcreate => exact (inv_create readings denials hcreate).2.2.1
  | @step events world world' call outcome htrace hrun ih =>
    have hopen := ih fun event hevent => hok event (mem_append_left _ hevent)
    obtain ⟨reply, rfl⟩ : ∃ reply, outcome = .ok reply := by
      have hlast := hok ⟨call, world, outcome⟩ (by simp)
      cases outcome with
      | ok reply => exact ⟨reply, rfl⟩
      | error e => simp [Except.isOk, Except.toBool] at hlast
    obtain ⟨middle, committed, doubt, heffect, hregisters, -, hok', -⟩ :=
      (stepped_of_run htrace.tracked.inv hrun).effect
    rw [hregisters.db]
    exact heffect.stays_ready hopen (hok' rfl).2

/-- Over every run of successful calls, a read at the head, at the snapshot of a
registered transaction, or at a snapshot that every later pruning compaction was
told to keep, returns the value of the newest mutation of the key in the whole
history. -/
theorem get_eq_history {events : List Event} {world : World} (h : Trace codec events world)
    (hok : ∀ event ∈ events, event.outcome.isOk) (key : Bytes) {s : Nat}
    (hs : s = world.db.snapshot ∨
      (∃ id transaction, world.transactions.find? id = some transaction ∧
        transaction.snapshot = s) ∨ Shielded events s) :
    world.db.get codec key s =
      (latest sequence s (chainOf key (history events))).bind
        value := by
  have htracked := h.tracked
  have hlive : Live events world s := by
    rcases hs with rfl | ⟨id, transaction, hfind, rfl⟩ | hshielded
    · exact Or.inr (Or.inr le_rfl)
    · refine Or.inl (htracked.inv.pins.mem_iff.mpr (mem_map.mpr ⟨transaction, ?_, rfl⟩))
      exact mem_map.mpr ⟨(id, transaction), mem_toList_iff.mpr hfind, rfl⟩
    · exact Or.inr (Or.inl hshielded)
  rw [htracked.inv.coherent.get_eq]
  exact (htracked.agrees (h.ready hok) s hlive).value_eq key

/-- A key is written, deleted and written again; a flush and a compaction that was
told to keep sequence 2 happen in between, and a transaction pins sequence 1. -/
def rewriteCalls : List Call :=
  [.write Ideal.putOne .buffered none, .begin, .write Ideal.deleteOne .authoritative none,
    .flushMemtable 3 none, .write Ideal.putOne .buffered none, .compact [2] 5 none]

theorem get_eq_history_rewrite :
    (runCalls Ideal.codec Ideal.start rewriteCalls).2.db.get Ideal.codec [1] 1 = some [7] := by
  have hpinned : ((runCalls Ideal.codec Ideal.start rewriteCalls).2.transactions.find? 0).map
      Transaction.snapshot = some 1 := by decide +kernel
  obtain ⟨transaction, hfind, hsnapshot⟩ := Option.map_eq_some_iff.mp hpinned
  rw [get_eq_history (Ideal.trace_start.runCalls rewriteCalls) (by decide +kernel) [1]
    (Or.inr (Or.inl ⟨0, transaction, hfind, hsnapshot⟩))]
  decide +kernel

end Rrflow.Lsm

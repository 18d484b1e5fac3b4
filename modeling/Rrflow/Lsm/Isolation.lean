import Rrflow.Lsm.History

/-!
Write conflicts.

A commit must fail when a key of its write set was mutated after the snapshot of
the transaction. The check only sees versions that are physically present. A
pruning compaction keeps the newest version of every key, except that it drops a
tombstone which nothing is left to hide; and with that tombstone goes the
evidence of a deletion. `KeepsEvidence` says when that does no harm: every
registered transaction began after the deletion.
-/

namespace Rrflow.Lsm

open Eff Latest List VersionedValue

variable {codec : Codec}

variable {entries : List Entry} {snapshots : List Nat} {world world' : World}

/-- The newest mutation of its key in a history. -/
def Newest (entries : List Entry) (entry : Entry) : Prop :=
  ∀ other ∈ entries, other.1 = entry.1 → other.2.sequence ≤ entry.2.sequence

instance (entries : List Entry) (entry : Entry) : Decidable (Newest entries entry) :=
  inferInstanceAs (Decidable (∀ other ∈ entries, _ → _))

/-- A call that may prune history finds no registered transaction older than a
deletion that is the newest mutation of its key. -/
def KeepsEvidence (entries : List Entry) (event : Event) : Prop :=
  event.pruned.isSome → ∀ entry ∈ entries, Newest entries entry → entry.2.value = none →
    ∀ transaction ∈ event.before.transactions.values, entry.2.sequence ≤ transaction.snapshot

instance (entries : List Entry) (event : Event) : Decidable (KeepsEvidence entries event) :=
  inferInstanceAs (Decidable (_ → ∀ entry ∈ entries, _ → _ → ∀ transaction ∈ _, _))

/-- Every call of a run that extends a history keeps the evidence. -/
def AllKeepEvidence : List Entry → List Event → Prop
  | _, [] => True
  | entries, event :: rest =>
    KeepsEvidence entries event ∧ AllKeepEvidence (entries ++ event.committed) rest

instance decidableAllKeepEvidence :
    (entries : List Entry) → (events : List Event) → Decidable (AllKeepEvidence entries events)
  | _, [] => isTrue trivial
  | entries, event :: rest =>
    have := decidableAllKeepEvidence (entries ++ event.committed) rest
    inferInstanceAs (Decidable (_ ∧ _))

variable {events : List Event}

theorem allKeepEvidence_concat {event : Event} : AllKeepEvidence entries (events ++ [event]) ↔
      AllKeepEvidence entries events ∧ KeepsEvidence (entries ++ history events) event := by
  induction events generalizing entries with
  | nil => simp [AllKeepEvidence, history]
  | cons first rest ih =>
    simp only [cons_append, AllKeepEvidence, ih, and_assoc, history, flatMap_cons, append_assoc]

/-! ### Evidence -/

/-- The newest mutation of every key is physically there, or it was a deletion
at or before all the given snapshots. -/
def Evident (entries : List Entry) (snapshots : List Nat) (db : Database) : Prop :=
  ∀ key s v, db.snapshot ≤ s →
    latest sequence s (chainOf key entries) = some v →
    latest sequence s (db.held key) = some v ∨ v.value = none ∧ ∀ p ∈ snapshots, v.sequence ≤ p

theorem newest_of_latest {head s : Nat} {key : Bytes} {v : VersionedValue}
    (hwithin : Within entries head) (hs : head ≤ s)
    (hv : latest sequence s (chainOf key entries) = some v) :
    (key, v) ∈ entries ∧ Newest entries (key, v) := by
  have hlatest := isLatest_latest sequence s (chainOf key entries)
  rw [hv] at hlatest
  refine ⟨mem_chainOf.mp hlatest.1, ?_⟩
  rintro ⟨_, u⟩ hother rfl
  exact hlatest.2.2 u (mem_chainOf.mpr hother) ((hwithin _ hother).trans hs)

theorem Evident.of_subset {snapshots' : List Nat} {db : Database} (h : Evident entries snapshots db)
    (hsub : ∀ p ∈ snapshots', p ∈ snapshots) :
    Evident entries snapshots' db :=
  fun key s v hs hv => (h key s v hs hv).imp_right fun hgone =>
    ⟨hgone.1, fun p hp => hgone.2 p (hsub p hp)⟩

theorem Evident.cons_head {db : Database} (h : Evident entries snapshots db)
    (hwithin : Within entries db.snapshot) :
    Evident entries (db.snapshot :: snapshots) db := by
  intro key s v hs hv
  refine (h key s v hs hv).imp_right fun hgone => ⟨hgone.1, fun p hp => ?_⟩
  rcases mem_cons.mp hp with rfl | hp
  · exact hwithin _ (newest_of_latest hwithin hs hv).1
  · exact hgone.2 p hp

/-- Maintenance keeps the evidence when the tombstones it may drop are harmless. -/
theorem Evident.maintains {prune : Bool} {safe : Nat → Prop}
    (h : Evident entries snapshots world.db) (hwithin : Within entries world.db.snapshot)
    (hmaintains : Maintains prune safe world world')
    (hkeeps : prune = true → ∀ entry ∈ entries, Newest entries entry → entry.2.value = none →
      ∀ p ∈ snapshots, entry.2.sequence ≤ p) :
    Evident entries snapshots world'.db := by
  intro key s v hs hv
  rw [hmaintains.head] at hs
  rcases h key s v hs hv with hheld | hgone
  · rcases hmaintains.stays key s (Or.inr (Or.inr hs)) with hstays | ⟨hprune, -, u, hu, hvalue⟩
    · exact Or.inl (hstays.trans hheld)
    · -- the tombstone is dropped now
      obtain rfl : v = u := Option.some.inj (hheld.symm.trans hu)
      obtain ⟨hmem, hnewest⟩ := newest_of_latest hwithin hs hv
      exact Or.inr ⟨hvalue, hkeeps hprune _ hmem hnewest hvalue⟩
  · exact Or.inr hgone

theorem Evident.wrote {batch : WriteBatch} {table : Memtable}
    (h : Evident entries snapshots world.db) (hinv : Inv codec world)
    (hwithin : Within entries world.db.snapshot) (hwrote : Wrote codec batch world world' table) :
    Evident (entries ++ stampOperations (world.db.snapshot + 1) batch.operations) snapshots
      world'.db := by
  intro key s v hs hv
  rw [hwrote.head_eq] at hs
  rw [hwrote.db_eq, hinv.coherent.latest_held_applied hwrote.applied]
  rw [hwithin.latest_applied] at hv
  cases hnew : latest sequence s
    (chainOf key (stampOperations (world.db.snapshot + 1) batch.operations)) with
  | some w =>
    rw [hnew] at hv
    exact Or.inl hv
  | none =>
    rw [hnew, Option.none_or] at hv
    exact h key s v (by omega) hv

theorem Evident.effect {committed doubt : List Mutation} {protectedSnapshots : Option (List Nat)}
    (h : Evident entries snapshots world.db) (hwithin : Within entries world.db.snapshot)
    (heffect : Effect codec protectedSnapshots world committed doubt world')
    (hready : world'.db.writerRequiresReopen = none)
    (hkeeps : protectedSnapshots.isSome → ∀ entry ∈ entries, Newest entries entry →
      entry.2.value = none → ∀ p ∈ snapshots, entry.2.sequence ≤ p) :
    Evident (entries ++ stampOperations (world.db.snapshot + 1) committed) snapshots
      world'.db := by
  cases heffect with
  | upkeep _ hmaintains =>
    rw [stampOperations, append_nil]
    exact h.maintains hwithin hmaintains hkeeps
  | wrote _ hmiddle hmaintains hwrote =>
    have hevident := h.maintains hwithin hmaintains hkeeps
    rw [← hmaintains.head] at hwithin ⊢
    exact hevident.wrote hmiddle hwithin hwrote
  | doubt _ _ _ hdoubt => exact absurd hready hdoubt.closed

theorem Evident.step {event : Event} {world' : World}
    (h : Evident (history events) event.before.db.transactionSnapshots.pins event.before.db)
    (htracked : Tracked codec events event.before) (hstep : Stepped codec event world')
    (hready : world'.db.writerRequiresReopen = none) (hkeeps : KeepsEvidence (history events) event)
    :
    Evident (history (events ++ [event])) world'.db.transactionSnapshots.pins world'.db := by
  obtain ⟨middle, committed, doubt, heffect, hregisters, hcommitted, -⟩ := hstep.effect
  have hreopen : middle.db.writerRequiresReopen = none := by rwa [hregisters.db] at hready
  have hwithin := htracked.within (heffect.ready hreopen)
  rw [history_concat, hcommitted]
  have hmiddle : Evident
      (history events ++ stampOperations (event.before.db.snapshot + 1) committed)
      (event.before.db.snapshot :: event.before.db.transactionSnapshots.pins) middle.db := by
    refine (h.cons_head hwithin).effect hwithin heffect hreopen ?_
    intro hpruned entry hentry hnewest hvalue p hp
    rcases mem_cons.mp hp with rfl | hp
    · exact hwithin entry hentry
    · rw [htracked.inv.pins.mem_iff] at hp
      obtain ⟨transaction, hmem, rfl⟩ := mem_map.mp hp
      exact hkeeps hpruned entry hentry hnewest hvalue transaction hmem
  have hpins : ∀ p ∈ world'.db.transactionSnapshots.pins,
      p ∈ event.before.db.snapshot :: event.before.db.transactionSnapshots.pins := by
    intro p hp
    rcases hstep.pins p hp with hp | rfl
    · exact mem_cons_of_mem _ hp
    · exact mem_cons_self ..
  have hsub := hmiddle.of_subset hpins
  rw [hregisters.db] at hsub ⊢
  exact hsub

theorem Trace.evident (h : Trace codec events world) (hkeeps : AllKeepEvidence [] events)
    (hready : world.db.writerRequiresReopen = none) :
    Evident (history events) world.db.transactionSnapshots.pins world.db := by
  induction h with
  | create readings denials hcreate =>
    intro key s v _ hv
    simp [history, latest] at hv
  | step htrace hrun ih =>
    obtain ⟨hpast, hlast⟩ := allKeepEvidence_concat.mp hkeeps
    have hstep := stepped_of_run htrace.tracked.inv hrun
    exact (ih hpast (hstep.ready hready)).step htrace.tracked hstep hready hlast

/-- A commit that succeeds had an open writer and found no newer version of a key
in its write set. -/
theorem commit_ok {id : Nat} {durability : Durability}
    {failure : Option (WriteBoundary × FailureMode)} {protectedSnapshots : Option (List Nat)}
    {reply : Reply} {transaction : Transaction} (hinv : Inv codec world)
    (hrun : (Call.commit id durability failure protectedSnapshots).run codec world
      = (.ok reply, world')) (hfind : world.transactions.find? id = some transaction) :
    world.db.writerRequiresReopen = none ∧
      ∀ key ∈ transaction.writes.keys, ∀ v, world.db.versionAt key world.db.snapshot = some v →
        v.sequence ≤ transaction.snapshot := by
  have hcall : wp ((Call.commit id durability failure protectedSnapshots).run codec)
      (fun _ _ => world.db.writerRequiresReopen = none ∧
        ∀ key ∈ transaction.writes.keys, ∀ v, world.db.versionAt key world.db.snapshot = some v →
          v.sequence ≤ transaction.snapshot) (fun _ _ => True) world := by
    rw [Call.run, wp_bind]
    refine wp_commitTransaction (fun _ _ => trivial) fun found hfound => ?_
    obtain rfl : transaction = found := Option.some.inj (hfind.symm.trans hfound)
    exact wp_mono (effect_commitTransactionInner hinv transaction _ _ _)
      (fun _ _ h => ⟨h.1, h.2.1⟩) (fun _ _ _ => trivial)
  exact wp_eq hcall hrun

/-- First committer wins, in every run that keeps the evidence of deletions: when
a commit succeeds, no mutation committed after the snapshot of the transaction is
of a key in its write set. -/
theorem no_later_mutation_of_commit {world world' : World} {id : Nat}
    {durability : Durability} {failure : Option (WriteBoundary × FailureMode)}
    {protectedSnapshots : Option (List Nat)} {reply : Reply} {transaction : Transaction}
    (h : Trace codec events world) (hkeeps : AllKeepEvidence [] events)
    (hrun : (Call.commit id durability failure protectedSnapshots).run codec world
      = (.ok reply, world')) (hfind : world.transactions.find? id = some transaction)
    (entry : Entry) (hentry : entry ∈ history events)
    (hkey : entry.1 ∈ transaction.writes.keys) : entry.2.sequence ≤ transaction.snapshot := by
  have htracked := h.tracked
  obtain ⟨hready, hchecked⟩ := commit_ok htracked.inv hrun hfind
  have hwithin := htracked.within hready
  have hmem : entry.2 ∈ chainOf entry.1 (history events) := mem_chainOf.mpr hentry
  have hlatest := isLatest_latest sequence world.db.snapshot (chainOf entry.1 (history events))
  cases hv : latest sequence world.db.snapshot (chainOf entry.1 (history events)) with
  | none =>
    rw [hv] at hlatest
    exact absurd (hlatest _ hmem) (not_lt.mpr (hwithin entry hentry))
  | some v =>
    rw [hv] at hlatest
    refine (hlatest.2.2 _ hmem (hwithin entry hentry)).trans ?_
    rcases h.evident hkeeps hready entry.1 _ v le_rfl hv with hheld | ⟨-, hold⟩
    · exact hchecked _ hkey v hheld
    · refine hold _ (htracked.inv.pins.mem_iff.mpr (mem_map.mpr ⟨transaction, ?_, rfl⟩))
      exact mem_map.mpr ⟨(id, transaction), SortedMap.mem_toList_iff.mpr hfind, rfl⟩

/-- A transaction begins, a key is deleted behind its back, a compaction drops the
tombstone, and the transaction writes the key. -/
def lostTombstoneCalls : List Call :=
  [.begin, .write Ideal.deleteOne .buffered none, .compact [] 5 none, .stage 0 [1] (some [9])]

/-- The commit of that transaction succeeds, although the key was mutated after its
snapshot. -/
theorem commit_after_lost_tombstone :
    let run := runCalls Ideal.codec Ideal.start lostTombstoneCalls
    Trace Ideal.codec run.1 run.2 ∧
    ((Call.commit 0 .buffered none none).run Ideal.codec run.2).1.isOk ∧
    (run.2.transactions.find? 0).map (fun transaction =>
      (transaction.snapshot, transaction.writes.keys)) = some (0, [[1]]) ∧
    ([1], ⟨1, none⟩) ∈ history run.1 := by
  refine ⟨Ideal.trace_start.runCalls lostTombstoneCalls, ?_, ?_, ?_⟩ <;> decide +kernel

/-- The same calls with the deletion before the transaction. -/
def oldTombstoneCalls : List Call :=
  [.write Ideal.deleteOne .buffered none, .begin, .compact [] 5 none, .stage 0 [1] (some [9])]

theorem no_later_mutation_of_commit_old_tombstone :
    ∃ transaction, (runCalls Ideal.codec Ideal.start oldTombstoneCalls).2.transactions.find? 0
        = some transaction ∧ 1 ≤ transaction.snapshot := by
  have hfound : ((runCalls Ideal.codec Ideal.start oldTombstoneCalls).2.transactions.find? 0).map
      (fun transaction => transaction.writes.keys) = some [[1]] := by decide +kernel
  obtain ⟨transaction, hfind, hkeys⟩ := Option.map_eq_some_iff.mp hfound
  have hok : ((Call.commit 0 .buffered none none).run Ideal.codec
      (runCalls Ideal.codec Ideal.start oldTombstoneCalls).2).1.isOk := by decide +kernel
  rcases hrun : (Call.commit 0 .buffered none none).run Ideal.codec
      (runCalls Ideal.codec Ideal.start oldTombstoneCalls).2 with ⟨_ | reply, world'⟩
  · rw [hrun] at hok
    simp [Except.isOk, Except.toBool] at hok
  · refine ⟨transaction, hfind, ?_⟩
    exact no_later_mutation_of_commit (Ideal.trace_start.runCalls oldTombstoneCalls)
      (by decide +kernel) hrun hfind ([1], ⟨1, none⟩) (by decide +kernel) (by rw [hkeys]; simp)

/-- No conflict without a cause: in every run with an open writer, a sequence that the
conflict check reports is that of a mutation of one of the keys, committed after the
snapshot. -/
theorem conflict_has_mutation (h : Trace codec events world)
    (hready : world.db.writerRequiresReopen = none) {snapshot conflicting : Nat}
    {keys : List Bytes} (hconflict : world.db.findConflict snapshot keys = some conflicting) :
    snapshot < conflicting ∧ ∃ entry ∈ history events, entry.1 ∈ keys ∧
      entry.2.sequence = conflicting := by
  obtain ⟨key, hkey, hfound⟩ := exists_of_findSome?_eq_some hconflict
  rw [h.tracked.inv.coherent.latestSequenceForKey_eq, Option.filter_eq_some_iff,
    Option.map_eq_some_iff] at hfound
  obtain ⟨⟨v, hv, rfl⟩, hlate⟩ := hfound
  refine ⟨of_decide_eq_true hlate, (key, v), ?_, hkey, rfl⟩
  rw [Database.versionAt] at hv
  rcases h.tracked.agrees hready _ (.inr (.inr le_rfl)) key with hsame | ⟨-, hnone, -⟩
  · have hlatest := isLatest_latest sequence world.db.snapshot (chainOf key (history events))
    rw [← hsame, hv] at hlatest
    exact mem_chainOf.mp hlatest.1
  · rw [hnone] at hv
    cases hv

theorem conflict_has_mutation_put :
    let run := runCalls Ideal.codec Ideal.start [.begin, .write Ideal.putOne .buffered none]
    ∃ entry ∈ history run.1, entry.1 ∈ [[1]] ∧ entry.2.sequence = 1 :=
  (conflict_has_mutation (Ideal.trace_start.runCalls
    [.begin, .write Ideal.putOne .buffered none]) (by decide +kernel)
    (by decide +kernel : Database.findConflict _ 0 [[1]] = some 1)).2

end Rrflow.Lsm

import Rrflow.Lsm.Lifecycle
import Rrflow.Lsm.Read

/-!
The invariant of a database and its directory.

`Inv` ties the memory of the process to its files: the current manifest
describes the open segments, their files are there, and replaying the active log
on top of the durable sequence gives the mutable table. Logs that no manifest
names yet are empty, so that a flush may adopt them.

Two relations describe what most computations do. `Silent` is a step of the
environment only. `Grows` adds files that nothing refers to yet; it is what a
publication does up to the point where it swaps the manifest, and it keeps the
invariant. `Maintains` is what maintenance as a whole promises to readers.
-/

namespace Rrflow.Lsm

open Eff Latest VersionedValue

variable {world world' : World} {table table' : Memtable} {limits : MutableLimits}

/-! ### Steps of the environment -/

/-- Only the environment moved. -/
structure Silent (world world' : World) : Prop where
  db : world'.db = world.db
  disk : world'.disk = world.disk
  transactions : world'.transactions = world.transactions

instance : Std.Refl Silent := ⟨fun _ => ⟨rfl, rfl, rfl⟩⟩

theorem Silent.trans {a b c : World} (h : Silent a b) (h' : Silent b c) : Silent a c :=
  ⟨h'.db.trans h.db, h'.disk.trans h.disk, h'.transactions.trans h.transactions⟩

instance : IsTrans World Silent := ⟨fun _ _ _ => Silent.trans⟩

theorem silent_nextReading : Preserves Silent nextReading := by
  intro world
  dsimp only [nextReading, wp]
  cases world.readings <;> exact ⟨rfl, rfl, rfl⟩

theorem silent_nextDenial : Preserves Silent nextDenial := by
  intro world
  dsimp only [nextDenial, wp]
  cases world.denials <;> exact ⟨rfl, rfl, rfl⟩

theorem silent_admitDisk : Preserves Silent admitDisk :=
  silent_nextDenial.bind fun denial => by
    cases denial with
    | none => exact preserves_pure ()
    | some numbers => exact preserves_fail _

theorem silent_admitRetention : Preserves Silent admitRetention :=
  silent_nextDenial.bind fun denial => by
    cases denial with
    | none => exact preserves_pure ()
    | some numbers => exact preserves_fail _

theorem silent_checkElapsed : Preserves Silent checkElapsed :=
  silent_nextReading.bind fun _ => preserves_get.bind fun _ => preserves_ofExcept _

theorem silent_injectAt {β : Type} [DecidableEq β] (asStr : β → String)
    (configured : Option (β × FailureMode)) (reached : β) :
    Preserves Silent (injectAt asStr configured reached) := by
  unfold injectAt
  split
  · exact (preserves_fail _).ite (preserves_pure ())
  · exact preserves_pure ()

theorem silent_ensureWriterReady : Preserves Silent ensureWriterReady :=
  preserves_get.bind fun world => by
    split
    · exact preserves_fail _
    · exact preserves_pure ()

theorem wp_ensureWriterReady {Q : Unit → World → Prop} {E : Error → World → Prop}
    (hready : world.db.writerRequiresReopen = none → Q () world)
    (herror : ∀ boundary, world.db.writerRequiresReopen = some boundary →
      E (.recoveryRequired boundary) world) : wp ensureWriterReady Q E world := by
  unfold ensureWriterReady
  rw [wp_bind, wp_get]
  cases h : world.db.writerRequiresReopen with
  | none => exact hready h
  | some boundary => exact herror boundary h

theorem wp_increment {n : Nat} {error : Error} {Q : Nat → World → Prop} {E : Error → World → Prop}
    (hok : n + 1 ≤ u64Max → Q (n + 1) world) (herror : E error world) :
    wp (increment n error) Q E world := by
  unfold increment
  cases h : checkedAdd n 1 with
  | none => exact herror
  | some next =>
    obtain ⟨rfl, hle⟩ := checkedAdd_eq_some h
    exact hok hle

/-- Replay of frames on a table, under the limits of recovery. -/
def replayLog (limits : MutableLimits) (table : Memtable) (frames : List WalFrame) :
    Except Error Memtable :=
  frames.foldlM (fun table frame =>
    table.applyOwnedRecovered frame.batch frame.firstSequence frame.lastSequence limits) table

theorem replayLog_append (limits : MutableLimits) (table : Memtable) (l₁ l₂ : List WalFrame) :
    replayLog limits table (l₁ ++ l₂) =
      (replayLog limits table l₁).bind (fun table => replayLog limits table l₂) := by
  unfold replayLog
  rw [List.foldlM_append]
  rfl

theorem applyOwnedRecovered_eq_ok {batch : WriteBatch} {first last : Nat} :
    table.applyOwnedRecovered batch first last limits = .ok table' ↔
      (∃ charge total, MutableCharge.batch batch = .ok charge ∧
        table.charge.checkedAdd charge = .ok total ∧ limits.check total = .ok ()) ∧
      table.applyWriteBatch batch first last = .ok table' := by
  simp only [Memtable.applyOwnedRecovered, Checks.bind_eq_ok]
  constructor
  · rintro ⟨charge, hcharge, total, htotal, _, hcheck, happly⟩
    exact ⟨⟨charge, total, hcharge, htotal, hcheck⟩, happly⟩
  · rintro ⟨⟨charge, total, hcharge, htotal, hcheck⟩, happly⟩
    exact ⟨charge, hcharge, total, htotal, (), hcheck, happly⟩

theorem replayLog_concat {frames : List WalFrame} {frame : WalFrame} :
    replayLog limits table (frames ++ [frame]) = .ok table' ↔
      ∃ middle, replayLog limits table frames = .ok middle ∧
        middle.applyOwnedRecovered frame.batch frame.firstSequence frame.lastSequence limits
          = .ok table' := by
  simp [replayLog, List.foldlM_append, Checks.bind_eq_ok]

/-- A replay that leaves room for another sequence keeps the chains ordered. -/
theorem replayLog_ordered {frames : List WalFrame} {durable : Nat}
    (h : replayLog limits table frames = .ok table') (hroom : table'.maximumSequence < u64Max)
    (hord : table.Ordered durable) :
    table'.Ordered durable := by
  induction frames using List.reverseRecOn generalizing table' with
  | nil =>
    cases h
    exact hord
  | append_singleton frames frame ih =>
    obtain ⟨middle, hmiddle, hone⟩ := replayLog_concat.mp h
    have happly := (applyOwnedRecovered_eq_ok.mp hone).2
    obtain ⟨hfirst, hlast, -, hmax, -⟩ := Memtable.applyWriteBatch_eq_ok happly
    have hlen := frame.batch.len_pos
    -- the sequence of a full table saturates, which leaves no room
    have hfull : middle.maximumSequence < u64Max := by
      rw [saturatingAdd] at hfirst
      omega
    exact (ih hmiddle hfull).applyWriteBatch hfull happly

def World.logTable (world : World) : Except Error Memtable :=
  replayLog world.db.options.mutableLimits (.atSequence world.db.manifest.durableSequence)
    ((world.disk.wals.find? world.db.walStart).getD [])

structure Inv (codec : Codec) (world : World) : Prop where
  options : world.db.options.validate = .ok ()
  coherent : world.db.Coherent codec
  valid : world.db.manifest.validate = .ok ()
  described : world.db.manifest.segments = (world.db.descriptors codec).insertionSort descriptorLe
  walStart : world.db.walStart = world.db.manifest.walStartSequence
  walAfter : world.db.manifest.walStartSequence = world.db.manifest.durableSequence + 1
  current : world.disk.current = some ⟨world.db.manifest.digest codec, world.db.manifest.generation⟩
  stored : world.disk.manifests.find? (world.db.manifest.digest codec) = some world.db.manifest
  present : ∀ segment ∈ world.db.segments,
    world.disk.segments.find? (codec.sha256 segment.content.rowGroups) = some segment.content
  /-- Segment files are named by their content. -/
  filed : ∀ id content, world.disk.segments.find? id = some content →
    codec.sha256 content.rowGroups = id
  opened : (world.disk.wals.find? world.db.walStart).isSome
  /-- Logs that no manifest names yet are empty. -/
  unused : ∀ start frames, world.db.walStart < start →
    world.disk.wals.find? start = some frames → frames = []
  /-- The log replays, to the mutable table unless the writer must reopen. -/
  log : ∃ table, world.logTable = .ok table ∧ table.maximumSequence < u64Max ∧
    (world.db.writerRequiresReopen = none →
      table = world.db.memtable ∧ world.db.walNextSequence = world.db.snapshot + 1)
  owners : ∀ id transaction, world.transactions.find? id = some transaction →
    transaction.owner = world.db.owner ∧ transaction.snapshot ≤ world.db.snapshot
  pins : world.db.transactionSnapshots.pins.Perm
    (world.transactions.values.map Transaction.snapshot)

theorem Inv.log_ready {codec : Codec} (h : Inv codec world)
    (hready : world.db.writerRequiresReopen = none) :
    world.logTable = .ok world.db.memtable ∧ world.db.snapshot < u64Max ∧
      world.db.walNextSequence = world.db.snapshot + 1 := by
  obtain ⟨table, htable, hroom, hlog⟩ := h.log
  obtain ⟨rfl, hnext⟩ := hlog hready
  exact ⟨htable, hroom, hnext⟩

theorem Inv.currentManifest {codec : Codec} (h : Inv codec world) :
    world.disk.currentManifest codec = .ok (some
      (⟨world.db.manifest.digest codec, world.db.manifest.generation⟩, world.db.manifest)) := by
  simp [Disk.currentManifest, Disk.loadManifest, h.current, h.stored, h.valid, bind, Except.bind,
    pure, Except.pure]

/-- Files were added, and none of them is in use. -/
structure Grows (codec : Codec) (world world' : World) : Prop where
  db : world'.db = { world.db with reclamationPending := world'.db.reclamationPending }
  transactions : world'.transactions = world.transactions
  current : world'.disk.current = world.disk.current
  checkpoints : world'.disk.checkpoints = world.disk.checkpoints
  wals : ∀ start frames, world.disk.wals.find? start = some frames →
    world'.disk.wals.find? start = some frames
  newWals : ∀ start frames, world'.disk.wals.find? start = some frames →
    world.disk.wals.find? start = some frames ∨ frames = []
  segments : ∀ id content, world.disk.segments.find? id = some content →
    world'.disk.segments.find? id = some content
  newSegments : ∀ id content, world'.disk.segments.find? id = some content →
    world.disk.segments.find? id = some content ∨ codec.sha256 content.rowGroups = id
  manifests : ∀ digest manifest, world.disk.manifests.find? digest = some manifest →
    world'.disk.manifests.find? digest = some manifest

section Grows

variable {codec : Codec}

theorem Silent.grows (h : Silent world world') : Grows codec world world' := by
  constructor <;> simp_all [h.db, h.disk, h.transactions]

instance : Std.Refl (Grows codec) := ⟨fun world => (Std.Refl.refl world : Silent world world).grows⟩

theorem Grows.trans {a b c : World} (h : Grows codec a b) (h' : Grows codec b c) :
    Grows codec a c where
  db := by rw [h'.db, h.db]
  transactions := h'.transactions.trans h.transactions
  current := h'.current.trans h.current
  checkpoints := h'.checkpoints.trans h.checkpoints
  wals _ _ hfind := h'.wals _ _ (h.wals _ _ hfind)
  newWals _ _ hfind := (h'.newWals _ _ hfind).elim (h.newWals _ _) Or.inr
  segments _ _ hfind := h'.segments _ _ (h.segments _ _ hfind)
  newSegments _ _ hfind := (h'.newSegments _ _ hfind).elim (h.newSegments _ _) Or.inr
  manifests _ _ hfind := h'.manifests _ _ (h.manifests _ _ hfind)

instance : IsTrans World (Grows codec) := ⟨fun _ _ _ => Grows.trans⟩

theorem grows_of_silent {α : Type} {x : Run α} (h : Preserves Silent x) :
    Preserves (Grows codec) x :=
  h.mono fun _ _ hs => hs.grows

theorem Inv.logTable_of_grows (h : Inv codec world) (hg : Grows codec world world') :
    world'.logTable = world.logTable := by
  obtain ⟨frames, hframes⟩ := Option.isSome_iff_exists.mp h.opened
  rw [World.logTable, World.logTable, hg.db]
  rw [hframes, hg.wals _ _ hframes]

theorem Inv.of_grows (h : Inv codec world) (hg : Grows codec world world') : Inv codec world' := by
  obtain ⟨frames, hframes⟩ := Option.isSome_iff_exists.mp h.opened
  have hframes' : world'.disk.wals.find? world.db.walStart = some frames :=
    hg.wals _ _ hframes
  have hdb := hg.db
  have htable := h.logTable_of_grows hg
  constructor
  · rw [hdb]; exact h.options
  · rw [hdb]; exact ⟨h.coherent.table, h.coherent.settled, h.coherent.distinct, h.coherent.index⟩
  · rw [hdb]; exact h.valid
  · rw [hdb]; exact h.described
  · rw [hdb]; exact h.walStart
  · rw [hdb]; exact h.walAfter
  · rw [hdb, hg.current]; exact h.current
  · rw [hdb]; exact hg.manifests _ _ h.stored
  · rw [hdb]; exact fun segment hsegment => hg.segments _ _ (h.present segment hsegment)
  · intro digest content hfind
    exact (hg.newSegments digest content hfind).elim (h.filed digest content) id
  · rw [hdb]; dsimp only; rw [hframes']; rfl
  · rw [hdb]
    intro start frames hlt hfind
    exact (hg.newWals start frames hfind).elim (h.unused start frames hlt) id
  · rw [htable, hdb]; exact h.log
  · rw [hdb, hg.transactions]; exact h.owners
  · rw [hdb, hg.transactions]; exact h.pins

end Grows

/-! ### What readers keep -/

/-- The version a read at `snapshot` is about stays, or it was a tombstone and is
gone. -/
def Stays (prune : Bool) (snapshot : Nat) (before after : List VersionedValue) : Prop :=
  latest sequence snapshot after = latest sequence snapshot before ∨
    prune = true ∧ latest sequence snapshot after = none ∧
      ∃ v, latest sequence snapshot before = some v ∧ v.value = none

theorem Stays.refl (prune : Bool) (snapshot : Nat) (held : List VersionedValue) :
    Stays prune snapshot held held :=
  Or.inl rfl

theorem Stays.trans {prune : Bool} {snapshot : Nat} {a b c : List VersionedValue}
    (h : Stays prune snapshot a b) (h' : Stays prune snapshot b c) : Stays prune snapshot a c := by
  rcases h with h | ⟨hprune, hnone, v, hv⟩
  · rcases h' with h' | ⟨hprune, hnone, v, hv⟩
    · exact Or.inl (h'.trans h)
    · exact Or.inr ⟨hprune, hnone, v, h ▸ hv.1, hv.2⟩
  · rcases h' with h' | ⟨-, -, w, hw, -⟩
    · exact Or.inr ⟨hprune, h'.trans hnone, v, hv⟩
    · rw [hnone] at hw
      simp at hw

theorem Stays.value_eq {prune : Bool} {snapshot : Nat} {before after : List VersionedValue}
    (h : Stays prune snapshot before after) :
    (latest sequence snapshot after).bind value = (latest sequence snapshot before).bind value := by
  rcases h with h | ⟨-, hnone, v, hv, hvalue⟩
  · rw [h]
  · rw [hnone, hv, Option.bind_none, Option.bind_some, hvalue]

/-- Maintenance moves versions between runs and may drop some. Reads at the head,
at the snapshot of a registered transaction and at the snapshots in `safe` are
not affected. -/
structure Maintains (prune : Bool) (safe : Nat → Prop) (world world' : World) : Prop where
  options : world'.db.options = world.db.options
  owner : world'.db.owner = world.db.owner
  views : world'.db.activeReadViews = world.db.activeReadViews
  snapshots : world'.db.transactionSnapshots = world.db.transactionSnapshots
  reopen : world'.db.writerRequiresReopen = world.db.writerRequiresReopen
  head : world'.db.snapshot = world.db.snapshot
  transactions : world'.transactions = world.transactions
  checkpoints : world'.disk.checkpoints = world.disk.checkpoints
  stays : ∀ key s, safe s ∨ s ∈ world.db.transactionSnapshots.pins ∨ world.db.snapshot ≤ s →
    Stays prune s (world.db.held key) (world'.db.held key)

section Maintains

variable {codec : Codec} {prune : Bool} {safe : Nat → Prop}

instance : Std.Refl (Maintains prune safe) :=
  ⟨fun _ => ⟨rfl, rfl, rfl, rfl, rfl, rfl, rfl, rfl, fun _ _ _ => Stays.refl ..⟩⟩

theorem Maintains.trans {a b c : World} (h : Maintains prune safe a b)
    (h' : Maintains prune safe b c) : Maintains prune safe a c where
  options := h'.options.trans h.options
  owner := h'.owner.trans h.owner
  views := h'.views.trans h.views
  snapshots := h'.snapshots.trans h.snapshots
  reopen := h'.reopen.trans h.reopen
  head := h'.head.trans h.head
  transactions := h'.transactions.trans h.transactions
  checkpoints := h'.checkpoints.trans h.checkpoints
  stays key s hs := (h.stays key s hs).trans
    (h'.stays key s (by rw [h.snapshots, h.head]; exact hs))

theorem Grows.maintains (h : Grows codec world world') : Maintains prune safe world world' := by
  have hdb := h.db
  constructor
  case transactions => exact h.transactions
  case checkpoints => exact h.checkpoints
  case stays => intro key s _; rw [hdb]; exact Stays.refl ..
  all_goals rw [hdb]
  rfl

/-- Maintenance that keeps every read also keeps fewer. -/
theorem Maintains.weaken (h : Maintains false (fun _ => True) world world') :
    Maintains prune safe world world' :=
  { h with
    stays := fun key s _ => (h.stays key s (Or.inl trivial)).imp_right
      fun hfalse => absurd hfalse.1 (by simp) }

/-- From a state with the invariant, a step of maintenance to another one. -/
def Upkeep (codec : Codec) (prune : Bool) (safe : Nat → Prop) (world world' : World) : Prop :=
  Inv codec world → Inv codec world' ∧ Maintains prune safe world world'

instance : Std.Refl (Upkeep codec prune safe) := ⟨fun world h => ⟨h, Std.Refl.refl world⟩⟩

theorem Upkeep.trans {a b c : World} (h : Upkeep codec prune safe a b)
    (h' : Upkeep codec prune safe b c) : Upkeep codec prune safe a c :=
  fun hinv => ⟨(h' (h hinv).1).1, (h hinv).2.trans (h' (h hinv).1).2⟩

instance : IsTrans World (Upkeep codec prune safe) := ⟨fun _ _ _ => Upkeep.trans⟩

theorem Grows.upkeep (h : Grows codec world world') : Upkeep codec prune safe world world' :=
  fun hinv => ⟨hinv.of_grows h, h.maintains⟩

theorem Silent.upkeep (h : Silent world world') : Upkeep codec prune safe world world' :=
  (h.grows).upkeep

theorem Upkeep.weaken (h : Upkeep codec false (fun _ => True) world world') :
    Upkeep codec prune safe world world' :=
  fun hinv => ⟨(h hinv).1, (h hinv).2.weaken⟩

end Maintains

end Rrflow.Lsm

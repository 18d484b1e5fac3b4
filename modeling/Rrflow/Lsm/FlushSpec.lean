import Rrflow.Lsm.ManifestErrors

/-!
What a flush does: the mutable table becomes segments of level zero, and no
version of any key is lost or added.
-/

namespace Rrflow.Lsm

open Eff Latest Checks List

variable {codec : Codec}

variable {world : World} {plan : FlushPlan} {table : Memtable} {keys : List Bytes}

/-! ### The partitions -/

/-- Boundaries are keys of the table, the first one included. -/
structure FlushPlan.Covers (plan : FlushPlan) (keys : List Bytes) : Prop where
  sublist : plan.boundaries.Sublist keys
  first : plan.boundaries.head? = keys.head?

theorem FlushPlan.Covers.nil : ({} : FlushPlan).Covers [] := ⟨List.Sublist.refl [], rfl⟩

theorem FlushPlan.Covers.cut (h : plan.Covers keys) (key : Bytes) (bytes : Nat) :
    FlushPlan.Covers { boundaries := plan.boundaries ++ [key], partitionBytes := bytes }
      (keys ++ [key]) := by
  refine ⟨h.sublist.append (List.Sublist.refl _), ?_⟩
  show (plan.boundaries ++ [key]).head? = _
  rw [head?_append, head?_append, h.first]

theorem FlushPlan.Covers.keep (h : plan.Covers keys) (hne : plan.boundaries ≠ []) (key : Bytes)
    (bytes : Nat) :
    FlushPlan.Covers { plan with partitionBytes := bytes } (keys ++ [key]) := by
  refine ⟨h.sublist.trans (sublist_append_left ..), ?_⟩
  show plan.boundaries.head? = _
  obtain ⟨first, rest, hb⟩ := exists_cons_of_ne_nil hne
  rw [head?_append, ← h.first, hb]
  rfl

theorem wp_planStep {l0Segments : Nat} (h : plan.Covers keys) (chain : Bytes × List VersionedValue)
    :
    wp (FlushPlan.step l0Segments plan chain)
      (fun plan' world' => Silent world world' ∧ plan'.Covers (keys ++ [chain.1]))
      (fun _ world' => Silent world world') world := by
  refine silent_checkElapsed.seq (fun _ _ hs => hs) fun _ world' hs => ?_
  refine wp_ofExcept_bind (fun _ _ => hs) fun groupBytes _ => ?_
  rw [wp_bind, wp_get]
  rw [wp_ite]
  split
  · refine wp_ofExcept_bind (fun _ _ => hs) fun _ _ => ?_
    refine wp_ofExcept_bind (fun _ _ => hs) fun _ _ => ?_
    exact ⟨hs, h.cut _ _⟩
  · rename_i hcond
    push Not at hcond
    exact ⟨hs, h.keep hcond.1 _ _⟩

theorem wp_plan {l0Segments : Nat} (chains : List (Bytes × List VersionedValue)) :
    wp (Eff.foldlM (FlushPlan.step l0Segments) {} chains)
      (fun plan world' => Silent world world' ∧ plan.Covers (chains.map Prod.fst))
      (fun _ world' => Silent world world') world := by
  refine wp_foldlM (fun seen (plan : FlushPlan) world' =>
      Silent world world' ∧ plan.Covers (seen.map Prod.fst))
    ⟨Std.Refl.refl world, FlushPlan.Covers.nil⟩ ?_
  rintro seen chain rest plan world' - ⟨hs, hcovers⟩
  refine wp_mono (wp_planStep hcovers chain) ?_ fun _ _ hs' => hs.trans hs'
  rintro plan' world'' ⟨hs', hcovers'⟩
  rw [map_append]
  exact ⟨hs.trans hs', hcovers'⟩

theorem flatMap_partitionBounds {α : Type} {boundaries : List Bytes}
    (hsorted : boundaries.Pairwise (· < ·)) (key : Bytes) (l : List α) :
    (partitionBounds boundaries).flatMap
        (fun bounds => if inRange bounds.1 bounds.2 key then l else []) =
      if boundaries.head?.any (fun first => first ≤ key) then l else [] := by
  induction boundaries with
  | nil => rfl
  | cons first rest ih =>
    obtain ⟨hlt, hrest⟩ := pairwise_cons.mp hsorted
    rw [partitionBounds, flatMap_cons, ih hrest, head?_cons, Option.any_some]
    cases rest with
    | nil => simp [inRange]
    | cons second rest =>
      have h12 := hlt second (by simp)
      simp only [inRange, head?_cons, Option.all_some, Option.any_some,
        Bool.and_eq_true, decide_eq_true_eq]
      by_cases h1 : first ≤ key
      · by_cases h2 : key < second
        · simp [h1, h2, not_le.mpr h2]
        · simp [h1, h2, not_lt.mp h2]
      · have h2 : ¬second ≤ key := fun h2 => h1 (h12.le.trans h2)
        simp [h1, h2]

theorem chainOf_rangeVersions (table : Memtable) (first : Bytes) (stop : Option Bytes)
    (key : Bytes) :
    chainOf key (chainRows (table.rangeVersions first stop)) =
      if inRange first stop key then table.chain key else [] := by
  have hrange : table.rangeVersions first stop =
      (table.versions.filter (fun k _ => inRange first stop k)).toList := rfl
  rw [hrange, chainOf_chainRows_toList, Memtable.chain]
  cases hfind : (table.versions.filter (fun k _ => inRange first stop k)).find? key with
  | some versions =>
    obtain ⟨hversions, hin⟩ := SortedMap.find?_filter_eq_some.mp hfind
    rw [hversions, if_pos hin]
  | none =>
    split
    · rename_i hin
      cases hversions : table.versions.find? key with
      | none => rfl
      | some versions =>
        rw [SortedMap.find?_filter_eq_some.mpr ⟨hversions, hin⟩] at hfind
        simp at hfind
    · rfl

structure Flushed (codec : Codec) (table : Memtable) (parts : List (Bytes × Option Bytes))
    (flushed : List Segment) (disk : Disk) : Prop where
  rows : List.Forall₂ (fun bounds (segment : Segment) =>
    segment.content.rows = chainRows (table.rangeVersions bounds.1 bounds.2)) parts flushed
  present : ∀ segment ∈ flushed,
    disk.segments.find? (codec.sha256 segment.content.rowGroups) = some segment.content
  level : ∀ segment ∈ flushed, segment.level = 0

theorem wp_flushPartitions (parts : List (Bytes × Option Bytes)) :
    wp (Eff.foldlM (fun flushed (bounds : Bytes × Option Bytes) => do
        checkElapsed
        let content ← writeSegment codec (table.rangeVersions bounds.1 bounds.2)
        return flushed ++ [({ content, level := 0 } : Segment)]) [] parts)
      (fun flushed world' => Grows codec world world' ∧
        Flushed codec table parts flushed world'.disk)
      (fun _ world' => Grows codec world world') world := by
  refine wp_foldlM (fun seen flushed world' => Grows codec world world' ∧
      Flushed codec table seen flushed world'.disk)
    ⟨Std.Refl.refl world, List.Forall₂.nil, by simp, by simp⟩ ?_
  rintro seen bounds rest flushed world' - ⟨hg, hflushed⟩
  refine silent_checkElapsed.seq (fun _ _ hs => hg.trans hs.grows) fun _ ticked hs => ?_
  have hgt : Grows codec world ticked := hg.trans hs.grows
  refine wp_then wp_writeSegment ?_ fun _ _ hg' => hgt.trans hg'
  rintro content written ⟨hg', hfound, hrows⟩
  refine ⟨hgt.trans hg', ?_, ?_, ?_⟩
  · exact rel_append hflushed.rows (List.Forall₂.cons hrows List.Forall₂.nil)
  · intro segment hsegment
    rcases mem_append.mp hsegment with hsegment | hsegment
    · exact hg'.segments _ _ (by rw [hs.disk]; exact hflushed.present segment hsegment)
    · rw [mem_singleton.mp hsegment]
      exact hfound
  · intro segment hsegment
    rcases mem_append.mp hsegment with hsegment | hsegment
    · exact hflushed.level segment hsegment
    · rw [mem_singleton.mp hsegment]

theorem Flushed.chains {parts : List (Bytes × Option Bytes)} {flushed : List Segment} {disk : Disk}
    (h : Flushed codec table parts flushed disk) (key : Bytes) :
    chainsOf flushed key = parts.flatMap (fun bounds => if inRange bounds.1 bounds.2 key then table.chain key
      else []) := by
  have hrows := h.rows
  clear h
  induction hrows with
  | nil => rfl
  | cons hrow _ ih =>
    rw [chainsOf, map_cons, flatten_cons, ← chainsOf, ih, flatMap_cons, SegmentContent.chain, hrow,
      chainOf_rangeVersions]

theorem Flushed.chains_all {flushed : List Segment} {disk : Disk}
    (h : Flushed codec table (partitionBounds plan.boundaries) flushed disk)
    (hcovers : plan.Covers (table.allVersions.map Prod.fst)) (key : Bytes) :
    chainsOf flushed key = table.chain key := by
  have hkeys : (table.allVersions.map Prod.fst).Pairwise (· < ·) :=
    pairwise_map.mpr table.versions.sorted
  rw [h.chains, flatMap_partitionBounds (hkeys.sublist hcovers.sublist), hcovers.first]
  split
  · rfl
  · rename_i hfirst
    -- a key with a chain is not before the first key
    cases hfind : table.versions.find? key with
    | none => rw [Memtable.chain, hfind, Option.getD_none]
    | some versions =>
      exfalso
      have hmem := SortedMap.mem_toList_iff.mpr hfind
      cases hall : table.allVersions with
      | nil => rw [Memtable.allVersions] at hall; simp [hall] at hmem
      | cons first rest =>
        rw [hall, map_cons, head?_cons, Option.any_some] at hfirst
        rw [hall, map_cons] at hkeys
        have hin : key ∈ first.1 :: rest.map Prod.fst := by
          rw [← map_cons, ← hall]
          exact mem_map.mpr ⟨_, hmem, rfl⟩
        rcases mem_cons.mp hin with rfl | hin
        · simp at hfirst
        · have := (pairwise_cons.mp hkeys).1 key hin
          simp [this.le] at hfirst

/-! ### The flush -/

def flushedDatabase (codec : Codec) (db : Database) (flushed : List Segment) (next : Manifest) :
    Database :=
  { db with
    walStart := db.snapshot + 1
    walNextSequence := db.snapshot + 1
    memtable := .atSequence db.snapshot
    walPayloadBytes := 0
    segments := db.segments ++ flushed
    pointIndex := .new ((db.segments ++ flushed).map (Segment.descriptor codec.toSegmentCodec))
    manifest := next
    reclamationPending := true }

section Flushed

variable {db : Database} {flushed : List Segment} {next : Manifest}
  (hchains : ∀ key, chainsOf flushed key = db.memtable.chain key)

include hchains

theorem segmentHeld_flushedDatabase (key : Bytes) :
    (flushedDatabase codec db flushed next).segmentHeld key =
      db.segmentHeld key ++ db.memtable.chain key := by
  show chainsOf (db.segments ++ flushed) key = _
  rw [chainsOf_append, hchains]
  rfl

theorem held_flushedDatabase (key : Bytes) :
    ((flushedDatabase codec db flushed next).held key).Perm (db.held key) := by
  rw [Database.held_eq, segmentHeld_flushedDatabase hchains, Database.held_eq]
  show (db.segmentHeld key ++ db.memtable.chain key).Perm _
  exact perm_append_comm

theorem coherent_flushedDatabase (h : db.Coherent codec)
    (hdurable : next.durableSequence = db.snapshot) :
    (flushedDatabase codec db flushed next).Coherent codec where
  table := by
    show (Memtable.atSequence db.snapshot).Ordered next.durableSequence
    rw [hdurable]
    exact Memtable.ordered_atSequence _
  settled := by
    intro key v hv
    rw [segmentHeld_flushedDatabase hchains] at hv
    show v.sequence ≤ next.durableSequence
    rw [hdurable]
    rcases mem_append.mp hv with hv | hv
    · exact (h.settled key v hv).trans h.table.le
    · exact (h.table.within key v hv).2
  distinct := by
    intro key
    rw [segmentHeld_flushedDatabase hchains]
    exact (perm_append_comm.map _).nodup_iff.mp (h.nodup_held key)
  index := rfl

end Flushed

/-- The written segments hold the table, in the first level. -/
structure Drained (codec : Codec) (world : World) (flushed : List Segment) : Prop where
  chains : ∀ key, chainsOf flushed key = world.db.memtable.chain key
  present : ∀ segment ∈ flushed, world.disk.segments.find?
    (codec.sha256 segment.content.rowGroups) = some segment.content
  level : ∀ segment ∈ flushed, segment.level = 0

variable {flushed : List Segment}

theorem flushedDatabase_upkeep {checked published : World} {next : Manifest}
    (hinv : Inv codec world) (hg : Grows codec world checked)
    (hp : Published codec next checked published) (hroom : world.db.snapshot < u64Max)
    (hdrained : Drained codec world flushed)
    (hdurable : next.durableSequence = world.db.snapshot)
    (hstart : next.walStartSequence = world.db.snapshot + 1)
    (hsegments : next.segments = ((world.db.segments ++ flushed).map
      (Segment.descriptor codec.toSegmentCodec)).insertionSort descriptorLe)
    (hwal : checked.disk.wals.find? (world.db.snapshot + 1) = some []) :
    Inv codec (published.setDb (flushedDatabase codec world.db flushed next)) ∧
      Maintains false (fun _ => True) world
        (published.setDb (flushedDatabase codec world.db flushed next)) := by
  have hcoherent := coherent_flushedDatabase hdrained.chains hinv.coherent hdurable
  refine ⟨hinv.published hg hp ⟨rfl, rfl, rfl⟩ le_rfl hcoherent hsegments hstart.symm
    (hstart.trans (congrArg Nat.succ hdurable.symm))
    (forall_mem_append.mpr ⟨hinv.present, hdrained.present⟩) ?_ hwal ⟨_, rfl,
      lt_of_eq_of_lt hdurable hroom, fun _ => ⟨congrArg Memtable.atSequence hdurable, rfl⟩⟩, ?_⟩
  · rw [hinv.walStart, hinv.walAfter]
    exact Nat.succ_le_succ hinv.coherent.table.le
  · exact
      { options := rfl, owner := rfl, views := rfl, snapshots := rfl, reopen := rfl, head := rfl
        transactions := hp.transactions.trans hg.transactions
        checkpoints := hp.checkpoints.trans hg.checkpoints
        stays := fun key s _ => Or.inl (latest_perm (hcoherent.nodup_held key)
          (held_flushedDatabase hdrained.chains key)) }

/-- The segments after a flush are leveled: those it writes are of the first level. -/
theorem leveled_flushed (h : Leveled world.db.segments)
    (hlevel : ∀ segment ∈ flushed, segment.level = 0) :
    Leveled (world.db.segments ++ flushed) := by
  refine pairwise_append.mpr ⟨h, ?_, ?_⟩
  · refine List.Pairwise.imp_of_mem ?_ (pairwise_of_forall fun _ _ => trivial)
    exact fun ha _ _ _ hne => absurd (hlevel _ ha) hne
  · exact fun a _ b hb heq hne => absurd (heq.trans (hlevel b hb)) hne

theorem wp_publishFlushed (hinv : Inv codec world) (createdAt : Nat)
    (failure : Option (FlushBoundary × FailureMode)) (hroom : world.db.snapshot < u64Max)
    (hdrained : Drained codec world flushed) :
    wp (publishFlushed codec createdAt failure world.db.snapshot flushed)
      (fun _ world' => (Inv codec world' ∧ Maintains false (fun _ => True) world world') ∧
        world'.db.memtable.versionCount = 0)
      (Fails codec false (fun _ => True) world) world := by
  unfold publishFlushed
  rw [wp_bind, wp_get]
  rw [wp_bind]
  refine wp_increment (fun _ => ?_)
    (hinv.fails _ _ (Std.Refl.refl world) fun _ => not_hasReason_of_kind rfl)
  refine Raises.seq (fun _ => spared_successorWal _) (wp_successorWal (world.db.snapshot + 1))
    hinv.fails ?_
  rintro _ logged ⟨hlogged, hempty, -⟩
  have hfail : ∀ e w, Grows codec logged w → _ → Fails codec false (fun _ => True) world e w :=
    fun e w hg => hinv.fails e w (hlogged.trans hg)
  refine Raises.step (fun _ => spared_injectAt _ _ _) (grows_of_silent (silent_injectAt _ _ _))
    (Std.Refl.refl logged) hfail fun _ injected hinjected => ?_
  refine wp_then (wp_successorManifest (by decide)) ?_ ?_
  swap
  · rintro e _ ⟨rfl, hreason⟩
    refine hfail e _ hinjected fun hcodec => hreason (hinv.of_grows (hlogged.trans hinjected))
      (le_min le_rfl hroom) ?_
    let next := { world.db.manifest with durableSequence := world.db.snapshot }
    have hcoherent : (flushedDatabase codec world.db flushed next).Coherent codec :=
      coherent_flushedDatabase hdrained.chains hinv.coherent rfl
    exact accepted_of_coherent hcodec hcoherent (leveled_flushed hinv.leveled hdrained.level)
  rintro next _ ⟨rfl, hvalid, hdurable, hstart, hsegments, -⟩
  refine Raises.step (fun _ => spared_checkElapsed) (grows_of_silent silent_checkElapsed)
    hinjected hfail fun _ checked hchecked => ?_
  have hgrown : Grows codec world checked := hlogged.trans hchecked
  refine wp_then (wp_publish_valid (hinv.of_grows hgrown) hvalid _) ?_
    fun e w h => hfail e w (hchecked.trans h.1) fun _ => h.2
  intro _ published hp
  rw [wp_bind, wp_modifyDb]
  have hdone := flushedDatabase_upkeep hinv hgrown hp hroom hdrained hdurable hstart
    hsegments (hchecked.wals _ _ hempty)
  rw [hp.db, hgrown.db]
  refine Raises.seq (fun _ => spared_injectAt _ _ _) (silent_injectAt _ _ _ _)
    (fun _ _ hs hr => ⟨IsTrans.trans _ _ _ (fun _ => hdone) hs.upkeep hinv, hr⟩) fun _ _ hs => ?_
  refine ⟨IsTrans.trans _ _ _ (fun _ => hdone) hs.upkeep hinv, ?_⟩
  rw [hs.db]
  rfl

theorem spared_planStep (l0Segments : Nat) (plan : FlushPlan)
    (chain : Bytes × List VersionedValue) : Spared (FlushPlan.step l0Segments plan chain) := by
  refine spared_checkElapsed.bind fun _ => Raises.bind (raises_ofExcept ?_) fun _ =>
    raises_get.bind fun world => Raises.ite
      ((spared_check _ _ _).bind fun _ => (spared_check _ _ _).bind fun _ => raises_pure _)
      (raises_pure _)
  refine Errs.foldlM (fun bytes version => ?_) _ _
  split
  · exact errs_ok _
  · exact spares_error rfl

/-- A flush keeps every read, and empties the table when it succeeds. It never fails for the
components of the manifest it builds. -/
theorem wp_flushMemtableInner (hinv : Inv codec world) (createdAt : Nat)
    (failure : Option (FlushBoundary × FailureMode)) :
    wp (flushMemtableInner codec createdAt failure)
      (fun _ world' => (Inv codec world' ∧ Maintains false (fun _ => True) world world') ∧
        world'.db.memtable.versionCount = 0)
      (Fails codec false (fun _ => True) world) world := by
  have hrefl : Grows codec world world := Std.Refl.refl world
  unfold flushMemtableInner
  rw [wp_bind]
  refine wp_ensureWriterReady ?_ fun _ _ =>
    hinv.fails _ _ hrefl fun _ => not_hasReason_of_kind rfl
  intro hready
  obtain ⟨-, hroom, hnext⟩ := hinv.log_ready hready
  rw [wp_bind, wp_get]
  rw [wp_ite]
  split
  · exact ⟨hrefl.upkeep hinv, ‹_›⟩
  refine Raises.seq (fun _ => Raises.foldlM (spared_planStep _) _ _)
    (wp_plan world.db.memtable.allVersions) (fun e w hs => hinv.fails e w hs.grows) ?_
  rintro plan planned ⟨hplanned, hcovers⟩
  refine Raises.step (fun _ => spared_injectAt _ _ _) (grows_of_silent (silent_injectAt _ _ _))
    hplanned.grows hinv.fails fun _ synced hsynced => ?_
  rw [wp_bind, wp_modifyDb]
  have hpending : Grows codec world
      (synced.setDb { synced.db with reclamationPending := true }) := by
    refine hsynced.trans ?_
    constructor <;> simp_all
  refine Raises.seq (fun hcodec : codec.Physical => Raises.foldlM
    (fun _ _ => spared_checkElapsed.bind fun _ => (spared_writeSegment hcodec _).bind fun _ =>
      raises_pure _) _ _) (wp_flushPartitions _)
    (fun e w hg => hinv.fails e w (hpending.trans hg)) ?_
  rintro flushed written ⟨hg, hflushed⟩
  refine Raises.seq (fun _ => spared_injectAt _ _ _) (silent_injectAt _ _ _ _)
    (fun e w hs => hinv.fails e w ((hpending.trans hg).trans hs.grows)) fun _ stored hs => ?_
  have hgrown : Grows codec world stored := (hpending.trans hg).trans hs.grows
  have hsequence : world.db.walNextSequence - 1 = stored.db.snapshot := by
    rw [hgrown.db, hnext]; rfl
  rw [hsequence]
  refine wp_mono (wp_publishFlushed (hinv.of_grows hgrown) createdAt failure ?_ ⟨?_, ?_, hflushed.level⟩)
    (fun _ _ h => ⟨⟨h.1.1, hgrown.maintains.trans h.1.2⟩, h.2⟩)
    (fun _ _ h => ⟨⟨h.1.1, hgrown.maintains.trans h.1.2⟩, h.2⟩)
  · rw [hgrown.db]; exact hroom
  · rw [hgrown.db]; exact hflushed.chains_all hcovers
  · rw [hs.disk]; exact hflushed.present

theorem upkeep_flushMemtableInner (createdAt : Nat)
    (failure : Option (FlushBoundary × FailureMode)) :
    Preserves (Upkeep codec false (fun _ => True)) (flushMemtableInner codec createdAt failure) :=
  Preserves.of_assuming fun _ hinv =>
    wp_mono (wp_flushMemtableInner hinv createdAt failure) (fun _ _ h => h.1) (fun _ _ h => h.1)

end Rrflow.Lsm

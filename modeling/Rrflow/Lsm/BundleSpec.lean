import Rrflow.Lsm.RecoverySpec

/-!
Snapshot bundles: what an export contains, and what an installation does. A
bundle that was exported from a database satisfying the invariant is `Sound`;
its installation either leaves the image of the target alone or replaces it as a
whole.
-/

namespace Rrflow.Lsm

open Eff Latest List

variable {codec : Codec}

variable {world : World} {bundle : SnapshotBundle} {packed : List Segment}

/-- A bundle with the segments it packs: they fit together as the segments of a
database do. -/
structure SnapshotBundle.Sound (codec : Codec) (bundle : SnapshotBundle) (packed : List Segment) :
    Prop where
  segments : bundle.segments =
    packed.map (fun segment => (segment.descriptor codec.toSegmentCodec, segment.content))
  described : packed.map (Segment.descriptor codec.toSegmentCodec) = bundle.sourceManifest.segments
  sorted : bundle.sourceManifest.segments.insertionSort descriptorLe =
    bundle.sourceManifest.segments
  settled : ∀ key, ∀ v ∈ chainsOf packed key, v.sequence ≤ bundle.sourceManifest.durableSequence
  distinct : ∀ key, ((chainsOf packed key).map VersionedValue.sequence).Nodup

theorem wp_readSegments (hinv : Inv codec world) :
    wp (readSegments world.db.manifest.segments)
      (fun read world' => world' = world ∧ ∃ packed : List Segment,
        read = packed.map (fun segment =>
          (segment.descriptor codec.toSegmentCodec, segment.content)) ∧
        packed.map (Segment.descriptor codec.toSegmentCodec) = world.db.manifest.segments)
      (fun _ world' => world' = world) world := by
  unfold readSegments
  rw [wp_bind, wp_get]
  refine wp_foldlM (fun seen read world' => world' = world ∧ ∃ packed : List Segment,
    read = packed.map (fun segment =>
      (segment.descriptor codec.toSegmentCodec, segment.content)) ∧
    packed.map (Segment.descriptor codec.toSegmentCodec) = seen) ⟨rfl, [], rfl, rfl⟩ ?_
  rintro seen descriptor rest read world' hsplit ⟨hsame, packed, rfl, hpacked⟩
  rw [hsame]
  have hmem : descriptor ∈ world.db.manifest.segments := by rw [hsplit]; simp
  rw [hinv.described, (perm_insertionSort _ _).mem_iff] at hmem
  obtain ⟨segment, hsegment, rfl⟩ := mem_map.mp hmem
  have hfind : world.disk.segments.find? (segment.descriptor codec.toSegmentCodec).id =
      some segment.content := hinv.present segment hsegment
  rw [hfind]
  exact ⟨rfl, packed ++ [segment], by simp, by rw [map_append, hpacked]; rfl⟩

/-- An exported bundle packs the segments of the database, which holds nothing
else. -/
theorem wp_exportSnapshotBundle (hinv : Inv codec world) (createdAt : Nat) :
    wp (exportSnapshotBundle codec createdAt)
      (fun bundle world' => (Inv codec world' ∧ Maintains false (fun _ => True) world world') ∧
        world'.db.memtable = .atSequence bundle.sourceManifest.durableSequence ∧
        ∃ packed, bundle.Sound codec packed ∧ packed.Perm world'.db.segments)
      (fun _ world' => Inv codec world' ∧ Maintains false (fun _ => True) world world') world := by
  unfold exportSnapshotBundle
  refine wp_then (wp_flushMemtableInner hinv createdAt none) ?_ fun _ _ h => h.1
  rintro _ flushed ⟨hflushed, hempty⟩
  have hinv' := hflushed.1
  rw [wp_bind, wp_get]
  refine wp_then (wp_readSegments hinv') ?_ fun _ _ heq => by rw [heq]; exact hflushed
  rintro read world' ⟨hsame, packed, rfl, hpacked⟩
  rw [hsame]
  rw [wp_bind]
  refine wp_ofExcept (fun _ _ => ?_) fun _ _ => hflushed
  have hperm : packed.Perm flushed.db.segments :=
    perm_of_descriptors (by rw [hpacked]; exact hinv'.described)
  have hheld : ∀ key, (chainsOf packed key).Perm (flushed.db.segmentHeld key) :=
    fun key => (hperm.map _).flatten
  refine ⟨hflushed, hinv'.coherent.table.counted hempty, packed, ?_, hperm⟩
  exact
    { segments := rfl
      described := hpacked
      sorted := by
        show flushed.db.manifest.segments.insertionSort descriptorLe = flushed.db.manifest.segments
        rw [hinv'.described, insertionSort_insertionSort]
      settled := fun key v hv => hinv'.coherent.settled key v ((hheld key).mem_iff.mp hv)
      distinct := fun key => ((hheld key).map _).nodup_iff.mpr (hinv'.coherent.distinct key) }

/-! ### Installation -/

theorem wp_admitInstallation (bundle : SnapshotBundle) :
    wp (admitInstallation codec bundle)
      (fun installed world' => world' = world ∧
        (installed = false → world.db.snapshot < bundle.sourceManifest.durableSequence))
      (fun _ world' => world' = world) world := by
  unfold admitInstallation
  rw [wp_bind, wp_get]
  rw [wp_ite]
  split
  · rfl
  · rw [wp_bind]
    refine wp_ofExcept (fun _ _ => wp_cond (fun _ => rfl) fun _ => ?_) fun _ _ => rfl
    refine wp_cond (fun _ => ⟨rfl, by simp⟩) fun _ => wp_cond (fun _ => rfl) fun hlt => ?_
    exact ⟨rfl, fun _ => not_le.mp hlt⟩

theorem wp_installSegment (segment : Segment) :
    wp (installSegment codec (segment.descriptor codec.toSegmentCodec, segment.content))
      (fun installed world' => installed = segment ∧ Grows codec world world' ∧
        world'.disk.segments.find? (codec.sha256 segment.content.rowGroups) = some segment.content)
      (fun _ world' => Grows codec world world') world := by
  unfold installSegment
  have hid : (segment.descriptor codec.toSegmentCodec).id =
      codec.sha256 segment.content.rowGroups := rfl
  have hdescriptor : segment.content.descriptor codec.toSegmentCodec
      (segment.descriptor codec.toSegmentCodec).level =
        segment.descriptor codec.toSegmentCodec := rfl
  rw [wp_ite, if_neg (not_not.mpr hdescriptor), wp_bind, wp_get, hid]
  cases hfind : world.disk.segments.find? (codec.sha256 segment.content.rowGroups) with
  | some existing =>
    rw [wp_ite]
    split
    · exact Std.Refl.refl world
    · next hsame =>
        rw [not_not.mp hsame] at hfind ⊢
        exact ⟨rfl, Std.Refl.refl world, hfind⟩
  | none =>
    refine silent_admitDisk.seq (fun _ _ hs => hs.grows) fun _ admitted hs => ?_
    have hnone : admitted.disk.segments.find? (codec.sha256 segment.content.rowGroups) = none := by
      rw [hs.disk, hfind]
    exact ⟨rfl, hs.grows.trans (grows_insertSegment rfl hnone), SortedMap.find?_insert_self ..⟩

theorem wp_installSegments (packed : List Segment) :
    wp (Eff.foldlM (fun imported segment => do
        return imported ++ [← installSegment codec segment]) []
        (packed.map fun segment => (segment.descriptor codec.toSegmentCodec, segment.content)))
      (fun imported world' => imported = packed ∧ Grows codec world world' ∧
        ∀ segment ∈ packed, world'.disk.segments.find?
          (codec.sha256 segment.content.rowGroups) = some segment.content)
      (fun _ world' => Grows codec world world') world := by
  refine wp_mono (wp_foldlM (fun seen imported world' => Grows codec world world' ∧
    seen = imported.map (fun segment =>
      (segment.descriptor codec.toSegmentCodec, segment.content)) ∧
    ∀ segment ∈ imported, world'.disk.segments.find?
      (codec.sha256 segment.content.rowGroups) = some segment.content)
    ⟨Std.Refl.refl world, rfl, by simp⟩ ?_) ?_ fun _ _ hg => hg
  · rintro seen pair rest imported world' hsplit ⟨hg, rfl, hpresent⟩
    obtain ⟨segment, -, rfl⟩ : ∃ segment ∈ packed,
        (segment.descriptor codec.toSegmentCodec, segment.content) = pair :=
      mem_map.mp (by rw [hsplit]; simp)
    refine wp_then (wp_installSegment segment) ?_ fun _ _ hg' => hg.trans hg'
    rintro _ world'' ⟨rfl, hg', hfind⟩
    refine ⟨hg.trans hg', by simp, fun other hother => ?_⟩
    rcases mem_append.mp hother with hother | hother
    · exact hg'.segments _ _ (hpresent other hother)
    · rw [mem_singleton.mp hother]
      exact hfind
  · rintro imported world' ⟨hg, hmap, hpresent⟩
    obtain rfl : packed = imported := by
      refine map_injective_iff.mpr ?_ hmap
      exact fun a b h => segmentDescriptor_injective codec (congrArg Prod.fst h)
    exact ⟨rfl, hg, hpresent⟩

def installedDatabase (db : Database) (bundle : SnapshotBundle) (packed : List Segment)
    (manifest : Manifest) : Database :=
  { db with
    walStart := bundle.sourceManifest.durableSequence + 1
    walNextSequence := bundle.sourceManifest.durableSequence + 1
    memtable := .atSequence bundle.sourceManifest.durableSequence
    walPayloadBytes := 0
    segments := packed
    pointIndex := .new manifest.segments
    manifest
    reclamationPending := true }

/-- The image of the database is that of the bundle. -/
structure Installed (codec : Codec) (bundle : SnapshotBundle) (packed : List Segment)
    (world world' : World) : Prop where
  inv : Inv codec world'
  memtable : world'.db.memtable = .atSequence bundle.sourceManifest.durableSequence
  segments : world'.db.segments = packed
  ready : world'.db.writerRequiresReopen = none
  options : world'.db.options = world.db.options
  current : world'.disk.current ≠ world.disk.current

theorem Installed.silent {middle world' : World} (h : Installed codec bundle packed world middle)
    (hs : Silent middle world') : Installed codec bundle packed world world' where
  inv := h.inv.of_grows hs.grows
  memtable := by rw [hs.db]; exact h.memtable
  segments := by rw [hs.db]; exact h.segments
  ready := by rw [hs.db]; exact h.ready
  options := by rw [hs.db]; exact h.options
  current := by rw [hs.disk]; exact h.current

theorem Installed.of_grows {middle world' : World} (h : Installed codec bundle packed middle world')
    (hg : Grows codec world middle) : Installed codec bundle packed world world' where
  inv := h.inv
  memtable := h.memtable
  segments := h.segments
  ready := h.ready
  options := by rw [h.options, hg.db]
  current := by rw [← hg.current]; exact h.current

section Publication

variable (hinv : Inv codec world) (hready : world.db.writerRequiresReopen = none)
  (hsound : bundle.Sound codec packed)
  (hlt : world.db.snapshot < bundle.sourceManifest.durableSequence)
  (hpresent : ∀ segment ∈ packed, world.disk.segments.find?
    (codec.sha256 segment.content.rowGroups) = some segment.content)

include hinv hready hsound hlt hpresent

theorem installed_of_published {checked published : World} {manifest : Manifest}
    (hroom : bundle.sourceManifest.durableSequence < u64Max)
    (hg : Grows codec world checked) (hp : Published codec manifest checked published)
    (hdurable : manifest.durableSequence = bundle.sourceManifest.durableSequence)
    (hstart : manifest.walStartSequence = bundle.sourceManifest.durableSequence + 1)
    (hsegments : manifest.segments = bundle.sourceManifest.segments.insertionSort descriptorLe)
    (hgeneration : manifest.generation = world.db.manifest.generation + 1)
    (hwal : checked.disk.wals.find? (bundle.sourceManifest.durableSequence + 1) = some []) :
    Installed codec bundle packed world
      (published.setDb (installedDatabase world.db bundle packed manifest)) := by
  have hsorted : manifest.segments = packed.map (Segment.descriptor codec.toSegmentCodec) := by
    rw [hsegments, hsound.sorted, hsound.described]
  have hcoherent : (installedDatabase world.db bundle packed manifest).Coherent codec := by
    refine ⟨?_, ?_, hsound.distinct, ?_⟩
    · show (Memtable.atSequence _).Ordered manifest.durableSequence
      rw [hdurable]
      exact Memtable.ordered_atSequence _
    · show ∀ key, ∀ v ∈ chainsOf packed key, v.sequence ≤ manifest.durableSequence
      rw [hdurable]
      exact hsound.settled
    · show PointIndex.new manifest.segments = _
      rw [hsorted]
      rfl
  refine ⟨hinv.published hg hp ⟨rfl, rfl, rfl⟩ hlt.le hcoherent ?_ hstart.symm
    (hstart.trans (congrArg Nat.succ hdurable.symm)) hpresent ?_ hwal ⟨_, rfl,
      lt_of_eq_of_lt hdurable hroom, fun _ => ⟨congrArg Memtable.atSequence hdurable, rfl⟩⟩,
    rfl, rfl, hready, rfl, ?_⟩
  · show manifest.segments = (packed.map _).insertionSort descriptorLe
    rw [← hsorted, hsegments, insertionSort_insertionSort]
  · rw [hinv.walStart, hinv.walAfter]
    exact Nat.succ_le_succ (hinv.coherent.table.le.trans hlt.le)
  · show published.disk.current ≠ world.disk.current
    rw [hp.current, hinv.current]
    intro heq
    have := congrArg CurrentPointer.generation (Option.some.inj heq)
    simp only [hgeneration] at this
    omega

theorem wp_publishInstalled (createdAt : Nat)
    (failure : Option (SnapshotInstallBoundary × FailureMode)) :
    wp (publishInstalled codec bundle createdAt failure packed)
      (fun _ => Installed codec bundle packed world)
      (fun _ world' => Grows codec world world' ∨ Installed codec bundle packed world world')
      world := by
  unfold publishInstalled
  rw [wp_bind, wp_get]
  rw [wp_bind]
  refine wp_increment ?_ (Or.inl (Std.Refl.refl world))
  intro hroom
  refine wp_then (wp_successorWal _) ?_ fun _ _ hg => Or.inl hg
  rintro _ logged ⟨hlogged, hempty, -⟩
  refine (silent_injectAt _ _ _).seq (fun _ _ hs => Or.inl (hlogged.trans hs.grows))
    fun _ injected hs => ?_
  have hinjected : Grows codec world injected := hlogged.trans hs.grows
  refine wp_then (wp_successorManifest (by decide)) ?_
    fun _ _ h => by rw [h.1]; exact Or.inl hinjected
  rintro manifest world' ⟨hsame, -, hdurable, hstart, hsegments, hgeneration⟩
  rw [hsame]
  refine wp_then (wp_publish manifest _) ?_ fun _ _ hg =>
    Or.inl (hinjected.trans hg)
  intro _ published hp
  have hdone := installed_of_published hinv hready hsound hlt hpresent (by omega) hinjected hp
    hdurable hstart hsegments (by rw [hgeneration, hinjected.db])
    (by rw [hs.disk, hempty])
  rw [wp_bind, wp_modifyDb]
  have hdb : published.db =
      { world.db with reclamationPending := injected.db.reclamationPending } := by
    rw [hp.db, hinjected.db]
  rw [hdb, wp_bind]
  exact (silent_injectAt _ _ _).wp (fun _ _ hs => hdone.silent hs)
    fun _ _ hs => Or.inr (hdone.silent hs)

end Publication

/-- An installation leaves the image alone or replaces it as a whole. -/
theorem wp_installSnapshotBundleInner (hinv : Inv codec world) (hsound : bundle.Sound codec packed)
    (createdAt : Nat) (failure : Option (SnapshotInstallBoundary × FailureMode)) :
    wp (installSnapshotBundleInner codec bundle createdAt failure)
      (fun _ world' => Grows codec world world' ∨ Installed codec bundle packed world world')
      (fun _ world' => Grows codec world world' ∨ Installed codec bundle packed world world')
      world := by
  unfold installSnapshotBundleInner
  rw [wp_bind]
  refine wp_ensureWriterReady ?_ fun _ _ => Or.inl (Std.Refl.refl world)
  intro hready
  refine wp_then (wp_admitInstallation bundle) ?_ fun _ _ heq => by
    rw [heq]; exact Or.inl (Std.Refl.refl world)
  rintro installed world' ⟨hsame, hadmitted⟩
  rw [hsame, wp_ite]
  split
  · exact Or.inl (Std.Refl.refl world)
  · next hfresh =>
      have hlt := hadmitted (by simpa using hfresh)
      rw [wp_bind, hsound.segments]
      refine wp_mono (wp_installSegments packed) ?_ fun _ _ hg => Or.inl hg
      rintro _ written ⟨rfl, hg, hpresent⟩
      refine (silent_injectAt _ _ _).seq (fun _ _ hs => Or.inl (hg.trans hs.grows))
        fun _ synced hs => ?_
      have hsynced : Grows codec world synced := hg.trans hs.grows
      refine wp_mono (wp_publishInstalled (hinv.of_grows hsynced) ?_ hsound ?_ ?_ createdAt failure)
        ?_ ?_
      · rw [hsynced.db]; exact hready
      · rw [hsynced.db]; exact hlt
      · rw [hs.disk]; exact hpresent
      · exact fun _ _ h => Or.inr (h.of_grows hsynced)
      · exact fun _ _ h => h.imp (fun hg' => hsynced.trans hg') (fun h => h.of_grows hsynced)

end Rrflow.Lsm

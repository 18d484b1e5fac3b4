import Rrflow.Lsm.Durability

/-!
The shape of the levels.

A compaction keeps it by its choice of segments, and a flush only adds to the first
level.
An installation takes the list of the bundle as it is. It keeps the shape when
that list is in the order of a manifest, which the validation of a bundle does not
ask of the segments of the first level.
-/

namespace Rrflow.Lsm

open Eff Checks List

variable {codec : Codec}

variable {world : World} {bundle : SnapshotBundle} {segments : List Segment}

/-! ### Installation -/

def SnapshotBundle.packed (bundle : SnapshotBundle) : List Segment :=
  bundle.segments.map fun pair => ⟨pair.2, pair.1.level⟩

structure SnapshotBundle.Valid (codec : Codec) (bundle : SnapshotBundle) : Prop where
  manifest : bundle.sourceManifest.validate = .ok ()
  described : bundle.packed.map (Segment.descriptor codec.toSegmentCodec) =
    bundle.sourceManifest.segments
  segments : bundle.segments = bundle.packed.map fun segment =>
    (segment.descriptor codec.toSegmentCodec, segment.content)

theorem SnapshotBundle.valid_of_validate {u : Unit} (h : bundle.validate codec = .ok u) :
    bundle.Valid codec := by
  obtain ⟨_, hmanifest, h⟩ := bind_eq_ok.mp h
  obtain ⟨-, h⟩ := unless_eq_ok.mp h
  obtain ⟨hlength, h⟩ := unless_eq_ok.mp h
  obtain ⟨_, hpairs, -⟩ := bind_eq_ok.mp h
  have hzip : List.Forall₂ (fun pair d => pair.1 = d ∧
      pair.2.descriptor codec.toSegmentCodec d.level = d) bundle.segments
      bundle.sourceManifest.segments := by
    simp only [not_or, not_not] at hlength
    refine forall₂_iff_zip.mpr ⟨hlength.2, fun {pair d} hmem => ?_⟩
    obtain ⟨_, _, hstep⟩ := exists_of_foldlM_eq_ok hpairs hmem
    obtain ⟨hfirst, hstep⟩ := unless_eq_ok.mp hstep
    obtain ⟨hsecond, -⟩ := unless_eq_ok.mp hstep
    exact ⟨not_not.mp hfirst, not_not.mp hsecond⟩
  have heach : ∀ pair ∈ bundle.segments,
      pair.2.descriptor codec.toSegmentCodec pair.1.level = pair.1 := by
    intro pair hpair
    obtain ⟨i, hi, rfl⟩ := mem_iff_getElem.mp hpair
    obtain ⟨hfirst, hsecond⟩ := hzip.get hi (hzip.length_eq ▸ hi)
    rw [get_eq_getElem] at hfirst hsecond
    rw [hfirst]
    exact hsecond
  refine ⟨hmanifest, ?_, ?_⟩
  · rw [SnapshotBundle.packed, map_map]
    refine (map_congr_left heach).trans ?_
    have hmap := forall₂_map_left_iff.mpr (hzip.imp fun _ _ h => h.1)
    exact forall₂_eq_eq_eq ▸ hmap
  · rw [SnapshotBundle.packed, map_map]
    exact (map_id _).symm.trans (map_congr_left fun pair hpair =>
      Prod.ext (heach pair hpair).symm rfl)

/-- A bundle as an export makes it: its manifest is in order, and no two of its segments hold
the same sequence of a key. -/
structure SnapshotBundle.Canonical (bundle : SnapshotBundle) : Prop where
  sorted : bundle.sourceManifest.segments.insertionSort descriptorLe =
    bundle.sourceManifest.segments
  distinct : ∀ key, ((chainsOf bundle.packed key).map VersionedValue.sequence).Nodup

theorem Manifest.accepted {manifest : Manifest} (h : manifest.validate = .ok ()) :
    Accepted manifest.durableSequence manifest.segments := by
  rw [Manifest.validate] at h
  split at h
  · cases h
  · exact (Manifest.validateComponents_eq_ok.mp h).2.2.2.2

theorem SnapshotBundle.Valid.sound (h : bundle.Valid codec) (hcanonical : bundle.Canonical) :
    bundle.Sound codec bundle.packed where
  segments := h.segments
  described := h.described
  sorted := hcanonical.sorted
  settled := by
    intro key v hv
    obtain ⟨segment, hsegment, hv⟩ := mem_chainsOf.mp hv
    have hmem : segment.descriptor codec.toSegmentCodec ∈ bundle.sourceManifest.segments :=
      h.described ▸ mem_map_of_mem hsegment
    exact (segment.content.le_maximumSequence (mem_chainOf.mp hv)).trans
      ((Manifest.accepted h.manifest).each _ hmem).2
  distinct := hcanonical.distinct

theorem SnapshotBundle.Sound.canonical {packed : List Segment} (h : bundle.Sound codec packed) :
    bundle.Canonical where
  sorted := h.sorted
  distinct := by
    have hpacked : bundle.packed = packed := by
      rw [SnapshotBundle.packed, h.segments, map_map]
      exact map_id _
    rw [hpacked]
    exact h.distinct

/-- No text of the validation begins like the one of an old snapshot. -/
theorem not_hasReason_advance (rest : String) :
    ¬HasReason (.invalidManifest ("snapshot sequence " ++ rest)) := by
  refine not_hasReason fun hmem => ?_
  have htake := mem_map_of_mem (f := fun reason : String => reason.toList.take 2) hmem
  rw [String.toList_append, take_append_of_le_length (by decide)] at htake
  revert htake
  decide

theorem spared_admitInstallation (h : bundle.validate codec = .ok ()) :
    Spared (admitInstallation codec bundle) := by
  refine raises_get.bind fun world => Raises.unless (not_hasReason_of_kind rfl) ?_
  refine Raises.bind (raises_ofExcept fun e he => ?_) fun _ => Raises.unless ?_ ?_
  · rw [h] at he
    cases he
  · refine not_hasReason ?_
    decide
  · refine Raises.ite (raises_pure _) (Raises.unless ?_ (raises_pure _))
    rw [String.append_assoc, String.append_assoc]
    exact not_hasReason_advance _

theorem spared_installSegment (pair : SegmentDescriptor × SegmentContent) :
    Spared (installSegment codec pair) := by
  unfold installSegment
  refine Raises.unless (not_hasReason_of_kind rfl) (raises_get.bind fun world => ?_)
  split
  · exact Raises.unless (not_hasReason_of_kind rfl) (raises_pure _)
  · exact spared_admitDisk.bind fun _ => (raises_modify _).bind fun _ => raises_pure _

/-- An installation never fails for the components of the manifest it builds, whatever valid
bundle it is given. -/
theorem spared_installSnapshotBundleInner (hinv : Inv codec world)
    (hvalidate : bundle.validate codec = .ok ()) (createdAt : Nat)
    (failure : Option (SnapshotInstallBoundary × FailureMode)) :
    wp (installSnapshotBundleInner codec bundle createdAt failure) (fun _ _ => True)
      (fun e _ => ¬HasReason e) world := by
  have hvalid := bundle.valid_of_validate hvalidate
  have haccepted := (Manifest.accepted hvalid.manifest).insertionSort
  have hfail : ∀ {w₀ : World} (e : Error) (w : World), Grows codec w₀ w → (True → ¬HasReason e) →
      ¬HasReason e := fun _ _ _ hr => hr trivial
  refine Raises.step (fun _ => spared_ensureWriterReady) (grows_of_silent silent_ensureWriterReady)
    (Std.Refl.refl world) hfail fun _ ready hready => ?_
  rw [wp_bind]
  refine (spared_admitInstallation hvalidate).wp (wp_mono (wp_admitInstallation bundle) ?_
    fun _ _ _ => trivial)
  rintro installed _ ⟨rfl, -⟩
  refine wp_cond (fun _ => trivial) fun _ => ?_
  rw [hvalid.segments]
  refine Raises.seq (fun _ => Raises.foldlM (fun _ pair => (spared_installSegment pair).bind
    fun _ => raises_pure _) _ _) (wp_installSegments bundle.packed) hfail ?_
  rintro _ written ⟨rfl, hg, -⟩
  refine Raises.step (fun _ => spared_injectAt _ _ _) (grows_of_silent (silent_injectAt _ _ _))
    (hready.trans hg) hfail fun _ synced hsynced => ?_
  unfold publishInstalled
  rw [wp_bind, wp_get, wp_bind]
  refine wp_increment (fun hle => ?_) (not_hasReason (by decide))
  refine Raises.seq (fun _ => spared_successorWal _) (wp_successorWal _) hfail ?_
  rintro _ logged ⟨hlogged, -⟩
  refine Raises.step (fun _ => spared_injectAt _ _ _) (grows_of_silent (silent_injectAt _ _ _))
    (hsynced.trans hlogged) hfail fun _ injected hinjected => ?_
  refine wp_then (wp_successorManifest (by decide)) ?_
    fun _ _ h => h.2 (hinv.of_grows hinjected) (le_min le_rfl hle) haccepted
  rintro next _ ⟨rfl, hnext, -⟩
  refine wp_then (wp_publish_valid (hinv.of_grows hinjected) hnext _) ?_ fun _ _ h => h.2
  intro _ published _
  rw [wp_bind, wp_modifyDb, wp_bind]
  exact (spared_injectAt _ _ _).wp (wp_trivial _)

/-- The states of a store under calls, reopenings and installations of bundles that meet a
condition. -/
inductive Reached (codec : Codec) (installable : SnapshotBundle → Prop) : World → Prop
  | create {options : DatabaseOptions} {format : Option Nat} {db : Database} {disk : Disk}
      (readings : List Nat) (denials : List (Option (Nat × Nat × Nat))) :
      create codec options format = .ok (db, disk) →
      Reached codec installable { db, disk, transactions := ∅, readings, denials }
  | call {world world' : World} {call : Call} {outcome : Except Error Reply} :
      Reached codec installable world → call.run codec world = (outcome, world') →
      Reached codec installable world'
  | reopen {world world' : World} {options : DatabaseOptions} {readings : List Nat} :
      Reached codec installable world → reopen codec options world readings = .ok world' →
      Reached codec installable world'
  | install {world world' : World} {bundle : SnapshotBundle} {createdAt : Nat}
      {failure : Option (SnapshotInstallBoundary × FailureMode)}
      {outcome : Except Error Manifest} :
      Reached codec installable world → installable bundle →
      installSnapshotBundleInner codec bundle createdAt failure world = (outcome, world') →
      Reached codec installable world'

/-- A bundle that does not pass its validation changes nothing. -/
theorem install_invalid {world' : World} {createdAt : Nat}
    {failure : Option (SnapshotInstallBoundary × FailureMode)} {outcome : Except Error Manifest}
    {e : Error} (h : bundle.validate codec = .error e)
    (hrun : installSnapshotBundleInner codec bundle createdAt failure world = (outcome, world')) :
    Silent world world' := by
  have hwp : wp (installSnapshotBundleInner codec bundle createdAt failure)
      (fun _ => Silent world) (fun _ => Silent world) world := by
    unfold installSnapshotBundleInner
    rw [wp_bind]
    refine silent_ensureWriterReady.wp (fun _ ready hs => ?_) fun _ _ hs => hs
    unfold admitInstallation
    rw [wp_bind, wp_bind, wp_get]
    refine wp_cond (fun _ => hs) fun _ => ?_
    rw [wp_bind, h]
    exact wp_ofExcept (fun _ hok => by cases hok) fun _ _ => hs
  have := wp_eq hwp hrun
  cases outcome <;> exact this

theorem Reached.inv (h : Reached codec SnapshotBundle.Canonical world) : Inv codec world := by
  induction h with
  | create readings denials hcreate => exact (inv_create readings denials hcreate).1
  | call _ hrun ih => exact (stepped_of_run ih hrun).inv
  | reopen _ hopen ih =>
    rw [Rrflow.Lsm.reopen] at hopen
    obtain ⟨db, hdb, hopen⟩ := bind_eq_ok.mp hopen
    cases hopen
    exact (recovered_of_openDatabase ih hdb).inv ih
  | install _ hcanonical hrun ih =>
    rename_i world world' bundle createdAt failure outcome _
    cases hvalidate : bundle.validate codec with
    | error e => exact ih.of_grows (install_invalid hvalidate hrun).grows
    | ok u =>
      have hsound := (bundle.valid_of_validate hvalidate).sound hcanonical
      exact (install_image ih hsound hrun).1

structure Database.Shaped (codec : Codec) (db : Database) : Prop where
  leveled : Leveled db.segments
  settled : ∀ segment ∈ db.segments, segment.content.maximumSequence ≤ db.manifest.durableSequence
  walStart : db.manifest.walStartSequence = db.manifest.durableSequence + 1
  /-- The active log starts there too. -/
  log : db.walStart = db.manifest.walStartSequence
  memtable : ∀ key, ∀ v ∈ db.memtable.chain key, db.manifest.durableSequence < v.sequence
  /-- The index is over the descriptions of the live segments, in their order. -/
  index : db.pointIndex = .new (db.descriptors codec)

theorem Inv.shaped (h : Inv codec world) : world.db.Shaped codec where
  leveled := h.leveled
  settled segment hsegment := segment.content.maximumSequence_le fun row hrow =>
    h.coherent.settled row.1 row.2 (mem_chainsOf.mpr ⟨segment, hsegment, mem_chainOf.mpr hrow⟩)
  walStart := h.walAfter
  log := h.walStart
  memtable key v hv := (h.coherent.table.within key v hv).1
  index := h.coherent.index

/-- When every installed bundle is canonical, each state of a store has the leveled shape, and
no flush, compaction or installation of a valid bundle fails because of the manifest it
builds. -/
theorem leveled_shape (hcodec : codec.Physical) {world : World}
    (h : Reached codec SnapshotBundle.Canonical world) :
    world.db.Shaped codec ∧
    (∀ createdAt failure e world',
      flushMemtableInner codec createdAt failure world = (.error e, world') → ¬ComponentError e) ∧
    (∀ protectedSnapshots createdAt failure force retainAllVersions e world',
      compactSegmentsInner codec protectedSnapshots createdAt failure force retainAllVersions
        world = (.error e, world') → ¬ComponentError e) ∧
    ∀ bundle createdAt failure e world', bundle.validate codec = .ok () →
      installSnapshotBundleInner codec bundle createdAt failure world = (.error e, world') →
        ¬ComponentError e := by
  have hinv := h.inv
  refine ⟨hinv.shaped, ?_, ?_, ?_⟩
  · intro createdAt failure e world' hrun
    exact not_componentError ((wp_eq (wp_flushMemtableInner hinv createdAt failure) hrun).2 hcodec)
  · intro protectedSnapshots createdAt failure force retainAllVersions e world' hrun
    exact not_componentError ((wp_eq (wp_compactSegmentsInner hinv protectedSnapshots
      createdAt failure force retainAllVersions) hrun).2 hcodec)
  · intro bundle createdAt failure e world' hvalidate hrun
    exact not_componentError (wp_eq (spared_installSnapshotBundleInner hinv hvalidate createdAt
      failure) hrun)

/-! ### Two installations -/

namespace Ideal

theorem physical : Ideal.codec.Physical where
  bytes_ne_zero groups := by
    show (entry.list.putList groups).length ≠ 0
    cases groups <;> simp [Wire.putList]
  admits_error _ := errs_ok ()

def putTwo : WriteBatch := ⟨[.put [2] [8]], 26, by decide⟩

def twoSegments : World :=
  (runCalls Ideal.codec start [.write putOne .authoritative none, .flushMemtable 1 none,
    .write putTwo .authoritative none, .flushMemtable 2 none]).2

def bundleOf : Except Error SnapshotBundle → SnapshotBundle
  | .ok bundle => bundle
  | .error _ => ⟨firstManifest, []⟩

theorem eq_ok_bundleOf {outcome : Except Error SnapshotBundle × World} (h : outcome.1.isOk) :
    outcome = (.ok (bundleOf outcome.1), outcome.2) := by
  rcases outcome with ⟨_ | bundle, world⟩
  · cases h
  · rfl

def exportedTwo : SnapshotBundle := bundleOf (exportSnapshotBundle Ideal.codec 3 twoSegments).1

/-- The same bundle with its segments listed the other way round. -/
def reversedTwo : SnapshotBundle where
  sourceManifest :=
    { exportedTwo.sourceManifest with segments := exportedTwo.sourceManifest.segments.reverse }
  segments := exportedTwo.segments.reverse

def installed (bundle : SnapshotBundle) : World :=
  (installSnapshotBundleInner Ideal.codec bundle 4 none start).2

theorem exportedTwo_canonical : exportedTwo.Canonical := by
  obtain ⟨attempts, hlife⟩ := life_start.runCalls [.write putOne .authoritative none,
    .flushMemtable 1 none, .write putTwo .authoritative none, .flushMemtable 2 none]
  have hinv : Inv Ideal.codec twoSegments := hlife.account.1
  have hok : (exportSnapshotBundle Ideal.codec 3 twoSegments).1.isOk := by decide +kernel
  obtain ⟨packed, hsound, -⟩ := export_image hinv (eq_ok_bundleOf hok)
  exact hsound.canonical

theorem reached_installed {installable : SnapshotBundle → Prop} (h : installable bundle) :
    Reached Ideal.codec installable (installed bundle) :=
  .install (.create [] [] (rfl : create Ideal.codec {} none = .ok (start.db, start.disk))) h
    Prod.mk.eta.symm

end Ideal

/-- A valid bundle that lists its two segments the other way round leaves an index over another
order than that of the segments, and reads miss a key that they hold. -/
theorem leveled_shape_fails :
    Ideal.reversedTwo.validate Ideal.codec = .ok () ∧
    Reached Ideal.codec (fun _ => True) (Ideal.installed Ideal.reversedTwo) ∧
    ¬(Ideal.installed Ideal.reversedTwo).db.Shaped Ideal.codec ∧
    (Ideal.installed Ideal.reversedTwo).db.get Ideal.codec [2] 2 = none ∧
    (Ideal.installed Ideal.reversedTwo).db.valueAt [2] 2 = some [8] := by
  refine ⟨by decide +kernel, Ideal.reached_installed trivial, fun hshaped => ?_,
    by decide +kernel, by decide +kernel⟩
  have hindex := hshaped.index
  revert hindex
  decide +kernel

/-- The bundle as it was exported. -/
theorem leveled_shape_exported :
    (Ideal.installed Ideal.exportedTwo).db.segments.length = 2 ∧
      (Ideal.installed Ideal.exportedTwo).db.Shaped Ideal.codec := by
  refine ⟨by decide +kernel, ?_⟩
  exact (leveled_shape Ideal.physical (Ideal.reached_installed Ideal.exportedTwo_canonical)).1

end Rrflow.Lsm

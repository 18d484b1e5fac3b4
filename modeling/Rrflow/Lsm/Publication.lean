import Rrflow.Lsm.Invariant

/-!
The building blocks of a publication: writing a segment, adopting a log for the
successor state, and swapping the manifest. Up to the swap everything is
`Grows`; `publish` either swaps the pointer or leaves only an unused manifest
file behind.
-/

namespace Rrflow.Lsm

open Eff Latest List SortedMap

variable {codec : Codec}

variable {world : World}

/-! ### Chains of rows -/

theorem chainOf_map_key (key k : Bytes) (versions : List VersionedValue) :
    chainOf key (versions.map (fun version => (k, version))) =
      if k = key then versions else [] := by
  rw [chainOf, filterMap_map]
  split
  · rename_i h
    simp [h]
  · rename_i h
    simp [h]

theorem chainOf_chainRows (key : Bytes) (versions : List (Bytes × List VersionedValue)) :
    chainOf key (chainRows versions) =
      versions.flatMap (fun chain => if chain.1 = key then chain.2 else []) := by
  rw [chainRows, chainOf_flatMap]
  simp only [chainOf_map_key]

theorem chainOf_chainRows_toList (chains : SortedMap Bytes (List VersionedValue)) (key : Bytes) :
    chainOf key (chainRows chains.toList) = (chains.find? key).getD [] := by
  have hlist : ∀ (l : List (Bytes × List VersionedValue)), l.Pairwise (fun a b => a.1 < b.1) →
      l.flatMap (fun chain => if chain.1 = key then chain.2 else []) =
        (lookupList key l).getD [] := by
    intro l hl
    induction l with
    | nil => rfl
    | cons chain rest ih =>
      obtain ⟨hlt, hrest⟩ := pairwise_cons.mp hl
      rw [flatMap_cons, lookupList]
      by_cases hkey : chain.1 = key
      · -- later chains have later keys
        have hnil : rest.flatMap (fun chain => if chain.1 = key then chain.2 else []) = [] := by
          rw [flatMap_eq_nil_iff]
          intro other hother
          rw [if_neg (by rw [← hkey]; exact (hlt other hother).ne')]
        rw [if_pos hkey, if_pos hkey.symm, hnil, append_nil, Option.getD_some]
      · rw [if_neg hkey, if_neg (Ne.symm hkey), nil_append, ih hrest]
  rw [chainOf_chainRows]
  exact hlist _ chains.sorted

def chainsOf (segments : List Segment) (key : Bytes) : List VersionedValue :=
  (segments.map (fun segment => segment.content.chain key)).flatten

theorem chainsOf_append (a b : List Segment) (key : Bytes) :
    chainsOf (a ++ b) key = chainsOf a key ++ chainsOf b key := by
  rw [chainsOf, map_append, flatten_append]
  rfl

theorem mem_chainsOf {segments : List Segment} {key : Bytes} {v : VersionedValue} :
    v ∈ chainsOf segments key ↔ ∃ segment ∈ segments, v ∈ segment.content.chain key := by
  simp [chainsOf, mem_flatten]

/-- Lists at different positions of a list without repetition are disjoint. -/
theorem disjoint_of_nodup_flatten {α : Type} {l : List (List α)} (h : l.flatten.Nodup) {i j : Nat}
    {a b : List α} (hi : l[i]? = some a) (hj : l[j]? = some b) (hij : i ≠ j) :
    a.Disjoint b := by
  have hpair := pairwise_iff_getElem.mp (nodup_flatten.mp h).2
  obtain ⟨hi', rfl⟩ := List.getElem?_eq_some_iff.mp hi
  obtain ⟨hj', rfl⟩ := List.getElem?_eq_some_iff.mp hj
  rcases Nat.lt_or_gt_of_ne hij with hlt | hlt
  · exact hpair i j hi' hj' hlt
  · exact (hpair j i hj' hi' hlt).symm

theorem grows_insertSegment {groups : List (List Entry)} {content : SegmentContent}
    (hrows : content.rowGroups = groups)
    (hnone : world.disk.segments.find? (codec.sha256 groups) = none) :
    Grows codec world (world.setDisk
      { world.disk with
        segments := world.disk.segments.insert (codec.sha256 groups) content }) := by
  constructor
  case segments => exact fun id c => find?_insert_of_none hnone
  case newSegments =>
    intro id c hfind
    rcases eq_or_find?_of_insert hfind with ⟨rfl, rfl⟩ | hfind
    · exact Or.inr (by rw [hrows])
    · exact Or.inl hfind
  all_goals simp_all

/-- A written segment has the rows it was given, under its identity. -/
theorem wp_writeSegment {versions : List (Bytes × List VersionedValue)} :
    wp (writeSegment codec versions)
      (fun content world' => Grows codec world world' ∧
        world'.disk.segments.find? (codec.sha256 content.rowGroups) = some content ∧
        content.rows = chainRows versions)
      (fun _ world' => Grows codec world world') world := by
  unfold writeSegment
  rw [wp_bind, wp_get, wp_bind]
  refine wp_ofExcept ?_ fun _ _ => Std.Refl.refl world
  intro groups hgroups
  have hflat := flatten_encodeVersions hgroups
  cases hfind : world.disk.segments.find? (codec.sha256 groups) with
  | some content =>
    rw [wp_ite]
    split
    · exact Std.Refl.refl world
    · rename_i hsame
      have hrows := codec.sha256_injective (not_not.mp hsame)
      refine ⟨Std.Refl.refl world, ?_, ?_⟩
      · rw [hrows, hfind]
      · rw [SegmentContent.rows, hrows]
        exact hflat
  | none =>
    refine silent_admitDisk.seq (fun _ _ hs => hs.grows) fun _ middle hs => ?_
    refine wp_ofExcept_bind (fun _ _ => hs.grows) fun content hcontent => ?_
    have hrows := validateContent_rowGroups hcontent
    have hnone : middle.disk.segments.find? (codec.sha256 groups) = none := by
      rw [hs.disk, hfind]
    refine ⟨hs.grows.trans (grows_insertSegment hrows hnone), ?_, ?_⟩
    · rw [hrows]
      exact find?_insert_self ..
    · rw [SegmentContent.rows, hrows]
      exact hflat

theorem grows_insertWal {next : Nat} (hnone : world.disk.wals.find? next = none) :
    Grows codec world
      (world.setDisk { world.disk with wals := world.disk.wals.insert next [] }) := by
  constructor
  case wals => exact fun start frames => find?_insert_of_none hnone
  case newWals =>
    intro start frames hstart
    exact (eq_or_find?_of_insert hstart).symm.imp_right And.right
  all_goals simp_all

theorem wp_successorWal {world : World} (next : Nat) :
    wp (successorWal next)
      (fun _ world' => Grows codec world world' ∧ world'.disk.wals.find? next = some [] ∧
        world'.disk.segments = world.disk.segments)
      (fun _ world' => Grows codec world world') world := by
  unfold successorWal
  rw [wp_bind, wp_get]
  cases hfind : world.disk.wals.find? next with
  | some frames =>
    rw [wp_ite]
    split
    · exact Std.Refl.refl world
    · rename_i hempty
      refine ⟨Std.Refl.refl world, ?_, rfl⟩
      simp only [Bool.not_eq_true, Bool.not_eq_false', List.isEmpty_iff] at hempty
      rw [hempty] at hfind
      exact hfind
  | none =>
    refine silent_admitDisk.seq (fun _ _ hs => hs.grows) fun _ middle hs => ?_
    have hnone : middle.disk.wals.find? next = none := by rw [hs.disk, hfind]
    refine ⟨hs.grows.trans (grows_insertWal hnone), find?_insert_self .., ?_⟩
    show middle.disk.segments = _
    rw [hs.disk]

/-- The pointer names `manifest`, and nothing else changed that is in use. -/
structure Published (codec : Codec) (manifest : Manifest) (world world' : World) : Prop where
  valid : manifest.validate = .ok ()
  db : world'.db = world.db
  transactions : world'.transactions = world.transactions
  wals : world'.disk.wals = world.disk.wals
  segments : world'.disk.segments = world.disk.segments
  checkpoints : world'.disk.checkpoints = world.disk.checkpoints
  current : world'.disk.current = some ⟨manifest.digest codec, manifest.generation⟩
  stored : world'.disk.manifests.find? (manifest.digest codec) = some manifest

theorem grows_insertManifest {manifest : Manifest}
    (hnone : world.disk.manifests.find? (manifest.digest codec) = none) :
    Grows codec world (world.setDisk
      { world.disk with
        manifests := world.disk.manifests.insert (manifest.digest codec) manifest }) := by
  constructor
  case manifests => exact fun digest m => find?_insert_of_none hnone
  all_goals simp_all

theorem wp_persistManifest (manifest : Manifest) :
    wp (persistManifest codec manifest)
      (fun _ world' => Grows codec world world' ∧ world'.db = world.db ∧
        world'.disk.wals = world.disk.wals ∧ world'.disk.segments = world.disk.segments ∧
        world'.disk.manifests.find? (manifest.digest codec) = some manifest)
      (fun _ world' => Grows codec world world') world := by
  unfold persistManifest
  rw [wp_bind, wp_get]
  cases hfind : world.disk.manifests.find? (manifest.digest codec) with
  | some existing =>
    rw [wp_ite]
    split
    · exact Std.Refl.refl world
    · rename_i hsame
      refine ⟨Std.Refl.refl world, rfl, rfl, rfl, ?_⟩
      rw [hfind, not_not.mp hsame]
  | none =>
    refine silent_admitDisk.seq (fun _ _ hs => hs.grows) fun _ middle hs => ?_
    have hnone : middle.disk.manifests.find? (manifest.digest codec) = none := by
      rw [hs.disk, hfind]
    refine ⟨hs.grows.trans (grows_insertManifest hnone), hs.db, ?_, ?_, find?_insert_self ..⟩
    · show middle.disk.wals = _
      rw [hs.disk]
    · show middle.disk.segments = _
      rw [hs.disk]

theorem wp_publish (manifest : Manifest) (expected : Option Digest) :
    wp (publish codec manifest expected) (fun _ => Published codec manifest world)
      (fun _ world' => Grows codec world world') world := by
  refine wp_ofExcept_bind (fun _ _ => Std.Refl.refl world) fun _ hvalid => ?_
  rw [wp_bind, wp_get, wp_bind]
  refine wp_ofExcept ?_ fun _ _ => Std.Refl.refl world
  intro current _
  rw [wp_ite]
  split
  · exact Std.Refl.refl world
  · rw [wp_ite]
    split
    · exact Std.Refl.refl world
    · refine wp_then (wp_persistManifest manifest) ?_ fun _ _ hg => hg
      rintro _ persisted ⟨hg, hdb, hwals, hsegments, hstored⟩
      refine silent_admitDisk.seq (fun _ _ hs => hg.trans hs.grows) fun _ admitted hs => ?_
      exact
        { valid := hvalid
          db := hs.db.trans hdb
          transactions := hs.transactions.trans hg.transactions
          wals := (congrArg Disk.wals hs.disk).trans hwals
          segments := (congrArg Disk.segments hs.disk).trans hsegments
          checkpoints := (congrArg Disk.checkpoints hs.disk).trans hg.checkpoints
          current := rfl
          stored := by
            show admitted.disk.manifests.find? _ = _
            rw [hs.disk, hstored] }

/-- The invariant of a database that takes over after a publication: its files were there before,
and its own log replays. -/
theorem Inv.published {checked published : World} {db : Database} {frames : List WalFrame}
    (hinv : Inv codec world) (hg : Grows codec world checked)
    (hp : Published codec db.manifest checked published)
    (hkept : db.options = world.db.options ∧ db.owner = world.db.owner ∧
      db.transactionSnapshots = world.db.transactionSnapshots)
    (hhead : world.db.snapshot ≤ db.snapshot) (hcoherent : db.Coherent codec)
    (hdescribed : db.manifest.segments = (db.descriptors codec).insertionSort descriptorLe)
    (hstart : db.walStart = db.manifest.walStartSequence)
    (hafter : db.manifest.walStartSequence = db.manifest.durableSequence + 1)
    (hpresent : ∀ segment ∈ db.segments, world.disk.segments.find?
      (codec.sha256 segment.content.rowGroups) = some segment.content)
    (hlater : world.db.walStart ≤ db.walStart)
    (hwal : checked.disk.wals.find? db.walStart = some frames)
    (hlog : ∃ table, replayLog db.options.mutableLimits (.atSequence db.manifest.durableSequence)
      frames = .ok table ∧ table.maximumSequence < u64Max ∧ (db.writerRequiresReopen = none →
        table = db.memtable ∧ db.walNextSequence = db.snapshot + 1)) :
    Inv codec (published.setDb db) := by
  have hchecked := hinv.of_grows hg
  have hwal' : published.disk.wals.find? db.walStart = some frames := by rw [hp.wals, hwal]
  have htransactions : published.transactions = world.transactions :=
    hp.transactions.trans hg.transactions
  exact
    { options := by rw [← hinv.options, ← hkept.1]; rfl
      coherent := hcoherent
      valid := hp.valid
      described := hdescribed
      walStart := hstart
      walAfter := hafter
      current := hp.current
      stored := hp.stored
      present := by
        intro segment hsegment
        show published.disk.segments.find? _ = _
        rw [hp.segments]
        exact hg.segments _ _ (hpresent segment hsegment)
      filed := by
        show ∀ id content, published.disk.segments.find? id = some content → _
        rw [hp.segments]
        exact hchecked.filed
      opened := Option.isSome_iff_exists.mpr ⟨frames, hwal'⟩
      unused := by
        show ∀ start frames, db.walStart < start → published.disk.wals.find? start = some frames → _
        rw [hp.wals]
        intro start frames hlt
        refine hchecked.unused start frames (lt_of_le_of_lt ?_ hlt)
        rw [hg.db]
        exact hlater
      log := by
        show ∃ table, replayLog _ _ ((published.disk.wals.find? db.walStart).getD []) = _ ∧ _
        rw [hwal']
        exact hlog
      owners := by
        intro id transaction hfind
        obtain ⟨howner, hle⟩ := hinv.owners id transaction (htransactions ▸ hfind)
        exact ⟨howner.trans hkept.2.1.symm, hle.trans hhead⟩
      pins := by
        show db.transactionSnapshots.pins.Perm _
        rw [hkept.2.2]
        exact htransactions ▸ hinv.pins }

end Rrflow.Lsm

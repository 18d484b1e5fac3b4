import Rrflow.Lsm.CompactionSpec

/-!
What reclamation does: it removes files, and none of those that the current
manifest, the live views or a checkpoint name. All errors before the first
removal leave the disk as it is.
-/

namespace Rrflow.Lsm

open Eff List SortedMap

variable {codec : Codec}

variable {world world' : World}

/-! ### The computation of the roots -/

theorem silent_reclamationLimits : Preserves Silent reclamationLimits :=
  preserves_get.bind fun _ => preserves_pure _

theorem silent_checkReclamation (resource : ReclamationResource) (limit observed : Nat) :
    Preserves Silent (checkReclamation resource limit observed) :=
  (preserves_fail _).ite (preserves_pure _)

theorem silent_reclamationTick : Preserves Silent reclamationTick :=
  silent_nextReading.bind fun _ => silent_reclamationLimits.bind fun _ =>
    silent_checkReclamation _ _ _

variable (budget : ReclamationBudget)

theorem silent_chargeEntries (entries : Nat) : Preserves Silent (chargeEntries budget entries) := by
  refine silent_reclamationTick.bind fun _ => ?_
  split
  · exact preserves_fail _
  · exact silent_reclamationLimits.bind fun _ =>
      (silent_checkReclamation _ _ _).bind fun _ => preserves_pure _

theorem silent_readMetadata (length : Nat) : Preserves Silent (readMetadata budget length) :=
  silent_reclamationTick.bind fun _ => silent_reclamationLimits.bind fun _ =>
    (silent_checkReclamation _ _ _).bind fun _ => silent_reclamationTick.bind fun _ =>
      preserves_pure _

theorem digest_of_loadManifest {disk : Disk} {digest : Digest} {manifest : Manifest}
    (h : disk.loadManifest codec digest = .ok manifest) : manifest.digest codec = digest := by
  unfold Disk.loadManifest at h
  split at h
  · cases h
  · simp only [Checks.bind_eq_ok, Checks.unless_eq_ok] at h
    obtain ⟨_, -, hdigest, hok⟩ := h
    rw [← Except.ok.inj hok, not_not.mp hdigest]

theorem wp_loadManifestBounded (digest : Digest) : wp (loadManifestBounded codec budget digest)
      (fun result world' => Silent world world' ∧ result.1.digest codec = digest)
      (fun _ world' => Silent world world') world := by
  unfold loadManifestBounded
  rw [wp_bind, wp_get]
  split
  · exact Std.Refl.refl world
  · exact (silent_readMetadata _ _).step (Std.Refl.refl world) fun _ _ hs =>
      wp_ofExcept_bind (fun _ _ => hs) fun _ hload => ⟨hs, digest_of_loadManifest hload⟩

theorem silent_loadManifestBounded (digest : Digest) :
    Preserves Silent (loadManifestBounded codec budget digest) := fun _ =>
  wp_mono (wp_loadManifestBounded budget digest) (fun _ _ h => h.1) fun _ _ h => h

/-- Everything in `retained` is in `retained'`. -/
structure Retained.Le (retained retained' : Retained) : Prop where
  manifests : retained.manifests ⊆ retained'.manifests
  wals : retained.wals ⊆ retained'.wals
  segments : ∀ id, retained.segments.contains id = true → retained'.segments.contains id = true

theorem Retained.Le.refl (retained : Retained) : retained.Le retained :=
  ⟨fun _ h => h, fun _ h => h, fun _ h => h⟩

theorem Retained.Le.trans {a b c : Retained} (h : a.Le b) (h' : b.Le c) : a.Le c :=
  ⟨fun _ hm => h'.manifests (h.manifests hm), fun _ hm => h'.wals (h.wals hm),
    fun id hm => h'.segments id (h.segments id hm)⟩

/-- What a manifest names is retained. -/
structure Retained.Covers (codec : Codec) (retained : Retained) (manifest : Manifest) : Prop where
  current : manifest.digest codec ∈ retained.manifests
  wal : manifest.walStartSequence ∈ retained.wals
  segments : ∀ segment ∈ manifest.segments, retained.segments.contains segment.id = true

theorem Retained.Covers.mono {retained retained' : Retained} {manifest : Manifest}
    (h : retained.Covers codec manifest) (hle : retained.Le retained') :
    retained'.Covers codec manifest :=
  ⟨hle.manifests h.current, hle.wals h.wal,
    fun segment hsegment => hle.segments _ (h.segments segment hsegment)⟩

def Retained.Closed (codec : Codec) (retained : Retained) : Prop :=
  ∀ manifest : Manifest, manifest.digest codec ∈ retained.manifests →
    retained.Covers codec manifest

/-- More is retained, and no more manifests. -/
theorem Retained.Closed.mono {retained retained' : Retained} (h : retained.Closed codec)
    (hle : retained.Le retained') (hsame : retained'.manifests = retained.manifests) :
    retained'.Closed codec := fun manifest hmem => (h manifest (hsame ▸ hmem)).mono hle

theorem wp_retainSegment (reason : String) (retained : Retained) (segment : SegmentDescriptor) :
    wp (retainSegment reason retained segment)
      (fun retained' world' => Silent world world' ∧ retained.Le retained' ∧
        retained'.manifests = retained.manifests ∧
        retained'.segments.contains segment.id = true)
      (fun _ world' => Silent world world') world := by
  have hnext : retained.Le
        { retained with segments := retained.segments.insert segment.id segment.bytes } ∧
      retained.manifests = retained.manifests ∧
      (retained.segments.insert segment.id segment.bytes).contains segment.id = true := by
    refine ⟨⟨fun _ h => h, fun _ h => h, ?_⟩, rfl, by simp [SortedMap.contains]⟩
    intro id h
    simp only [SortedMap.contains, SortedMap.find?_insert] at h ⊢
    split
    · rfl
    · exact h
  unfold retainSegment
  split
  · rw [wp_ite]
    split
    · exact Std.Refl.refl world
    · exact ⟨Std.Refl.refl world, hnext⟩
  · exact ⟨Std.Refl.refl world, hnext⟩

theorem wp_retainManifest (retained : Retained) (manifest : Manifest) :
    wp (retainManifest codec budget retained manifest)
      (fun result world' => Silent world world' ∧ retained.Le result.1 ∧
        manifest.digest codec ∈ result.1.manifests ∧
        (retained.Closed codec → result.1.Closed codec))
      (fun _ world' => Silent world world') world := by
  refine (silent_chargeEntries _ _).step (Std.Refl.refl world) fun budget charged hcharged =>
    wp_cond (fun hin => ?_) fun _ => ?_
  · exact ⟨hcharged, Retained.Le.refl _, hin, id⟩
  · refine (silent_chargeEntries _ _).step hcharged fun budget charged hcharged =>
      (preserves_ofExcept _).step hcharged fun _ charged' hcharged' => ?_
    rw [wp_bind]
    set start : Retained := { retained with
      manifests := manifest.digest codec :: retained.manifests
      wals := retained.wals.insert manifest.walStartSequence }
    have hloop := wp_foldlM (E := fun _ world' => Silent world world')
      (f := fun retained segment => do
        reclamationTick
        retainSegment "protected manifests disagree about segment length" retained segment)
      (fun seen (retained' : Retained) world' => Silent world world' ∧ start.Le retained' ∧
        retained'.manifests = start.manifests ∧
        ∀ segment ∈ seen, retained'.segments.contains segment.id = true)
      (l := manifest.segments) (a := start) (s := charged')
      ⟨hcharged', Retained.Le.refl _, rfl, by simp⟩ (by
        rintro seen segment rest retained' world' - ⟨hs, hle, hsame, hseen⟩
        refine silent_reclamationTick.step hs fun _ ticked hticked => ?_
        refine wp_mono (wp_retainSegment _ _ _) ?_ fun _ _ hs => hticked.trans hs
        rintro retained'' world'' ⟨hs, hle', hsame', hnew⟩
        refine ⟨hticked.trans hs, hle.trans hle', hsame'.trans hsame, ?_⟩
        intro other hother
        rcases mem_append.mp hother with hother | hother
        · exact hle'.segments _ (hseen other hother)
        · rw [mem_singleton.mp hother]
          exact hnew)
    refine wp_mono hloop ?_ fun _ _ hs => hs
    rintro retained' world' ⟨hs, hle, hsame, hall⟩
    have hstart : retained.Le start :=
      ⟨fun _ h => mem_cons_of_mem _ h, fun _ h => mem_insert_of_mem h, fun _ h => h⟩
    have hin := hle.manifests (mem_cons_self ..)
    refine ⟨hs, hstart.trans hle, hin, fun hclosed other hother => ?_⟩
    rcases mem_cons.mp (hsame ▸ hother) with heq | hother
    · obtain rfl := codec.manifestSha256_injective heq
      exact ⟨hin, hle.wals mem_insert_self, hall⟩
    · exact (hclosed other hother).mono (hstart.trans hle)

theorem wp_retainViews (retained : Retained) : wp (retainViews budget retained)
      (fun result world' => Silent world world' ∧ retained.Le result.1 ∧
        result.1.manifests = retained.manifests)
      (fun _ world' => Silent world world') world := by
  unfold retainViews
  rw [wp_bind, wp_get]
  refine wp_foldlM (fun _ (state : Retained × ReclamationBudget) world' =>
    Silent world world' ∧ retained.Le state.1 ∧ state.1.manifests = retained.manifests)
    ⟨Std.Refl.refl world, Retained.Le.refl _, rfl⟩ ?_
  rintro seen segment rest state world' - ⟨hs, hle, hsame⟩
  refine (silent_chargeEntries _ _).step hs fun budget charged hcharged =>
    wp_step hcharged (wp_retainSegment _ _ _) fun _ _ hs' hle' => ?_
  exact ⟨hs', hle.trans hle'.1, hle'.2.1.trans hsame⟩

theorem wp_checkpointsBounded : wp (checkpointsBounded codec budget)
      (fun result world' => Silent world world' ∧ result.1 = world.disk.checkpoints.values)
      (fun _ world' => Silent world world') world := by
  unfold checkpointsBounded
  rw [wp_bind, wp_get]
  refine Preserves.step (Preserves.foldlM ?_ _ _) (Std.Refl.refl world) fun _ _ hs =>
    Preserves.step (Preserves.foldlM ?_ _ _) hs fun _ _ hs => ⟨hs, rfl⟩
  · intro state checkpoint
    refine (silent_chargeEntries _ _).bind fun _ => Preserves.ite ?_ (preserves_pure _)
    exact (preserves_fail _).bind fun _ => preserves_pure _
  · intro budget checkpoint
    refine (silent_readMetadata _ _).bind fun _ => (silent_loadManifestBounded _ _).bind fun _ =>
      Preserves.ite ?_ (preserves_pure _)
    exact (preserves_fail _).bind fun _ => preserves_pure _

theorem wp_retainCheckpoints (retained : Retained) : wp (retainCheckpoints codec budget retained)
      (fun result world' => Silent world world' ∧ retained.Le result.1 ∧
        (retained.Closed codec → result.1.Closed codec) ∧
        ∀ checkpoint ∈ world.disk.checkpoints.values, checkpoint.manifest ∈ result.1.manifests)
      (fun _ world' => Silent world world') world := by
  refine wp_step (Std.Refl.refl world) (wp_checkpointsBounded budget) ?_
  rintro ⟨checkpoints, budget'⟩ listed hlisted rfl
  refine wp_foldlM (fun seen (state : Retained × ReclamationBudget) world' =>
    Silent world world' ∧ retained.Le state.1 ∧ (retained.Closed codec → state.1.Closed codec) ∧
      ∀ checkpoint ∈ seen, Checkpoint.manifest checkpoint ∈ state.1.manifests)
    ⟨hlisted, Retained.Le.refl _, id, by simp⟩ ?_
  rintro seen checkpoint rest state world' - ⟨hs, hle, hclosed, hseen⟩
  refine wp_cond (fun hin => ⟨hs, hle, hclosed, ?_⟩) fun _ =>
    wp_step hs (wp_loadManifestBounded _ _) fun loaded world₁ hs₁ hdigest => ?_
  · exact forall_mem_append.mpr ⟨hseen, by simpa using hin⟩
  refine wp_mono (wp_retainManifest _ _ _) ?_ fun _ _ hs => hs₁.trans hs
  rintro result world₂ ⟨hs₂, hle', hin, hclosed'⟩
  refine ⟨hs₁.trans hs₂, hle.trans hle', hclosed' ∘ hclosed, forall_mem_append.mpr ⟨?_, ?_⟩⟩
  · exact fun other hother => hle'.manifests (hseen other hother)
  · simpa using hdigest ▸ hin

/-- What the current manifest names and what the manifests of checkpoints name is
retained. -/
def Retained.Rooted (codec : Codec) (retained : Retained) (world : World) : Prop :=
  ∀ manifest : Manifest, manifest = world.db.manifest ∨
    (∃ checkpoint ∈ world.disk.checkpoints.values, checkpoint.manifest = manifest.digest codec) →
    retained.Covers codec manifest

theorem wp_reclamationRoots (world : World) :
    wp (reclamationRoots codec)
      (fun result world' => Silent world world' ∧ result.1.Rooted codec world)
      (fun _ world' => Silent world world') world := by
  unfold reclamationRoots
  rw [wp_bind, wp_get]
  refine wp_step (Std.Refl.refl world) (wp_retainManifest _ _ _) ?_
  rintro ⟨retained, budget⟩ world₁ hs₁ ⟨-, hin, hclosed⟩
  refine wp_step hs₁ (wp_retainViews _ _) fun _ world₂ hs₂ ⟨hle, hsame⟩ => ?_
  refine wp_mono (wp_retainCheckpoints _ _) ?_ fun _ _ hs => hs₂.trans hs
  rintro result world₃ ⟨hs₃, hle', hclosed', hall⟩
  have hclosed := hclosed' ((hclosed (by simp [Retained.Closed])).mono hle hsame)
  rw [hs₂.disk] at hall
  refine ⟨hs₂.trans hs₃, ?_⟩
  rintro manifest (rfl | ⟨checkpoint, hmem, heq⟩)
  · exact hclosed _ (hle'.manifests (hle.manifests hin))
  · exact hclosed _ (heq ▸ hall checkpoint hmem)

theorem silent_checkRetained (retained : Retained) :
    Preserves Silent (checkRetained codec budget retained) := by
  refine preserves_get.bind fun world => Preserves.bind (Preserves.foldlM ?_ _ _) fun _ =>
    Preserves.bind (Preserves.foldlM ?_ _ _) fun _ => Preserves.foldlM ?_ _ _
  · intro budget digest
    exact (silent_loadManifestBounded _ _).bind fun _ => preserves_pure _
  · intro budget segment
    refine (silent_chargeEntries _ _).bind fun _ => ?_
    split
    · exact preserves_fail _
    · refine Preserves.ite ?_ (preserves_pure _)
      exact (preserves_fail _).bind fun _ => preserves_pure _
  · intro budget start
    refine (silent_chargeEntries _ _).bind fun _ => Preserves.ite ?_ (preserves_pure _)
    exact (preserves_fail _).bind fun _ => preserves_pure _

theorem wp_unreachableFiles {κ : Type} (names : List κ) (isRetained : κ → Bool)
    (budget : ReclamationBudget) :
    wp (unreachableFiles names isRetained budget)
      (fun result world' => Silent world world' ∧
        result.1 = names.filter (fun name => !isRetained name))
      (fun _ world' => Silent world world') world := by
  unfold unreachableFiles
  rw [wp_bind]
  refine (Preserves.foldlM (fun budget _ => silent_chargeEntries budget 1) budget names).wp ?_
    fun _ _ hs => hs
  intro _ world' hs
  exact ⟨hs, rfl⟩

/-! ### Removal -/

/-- Files were removed, and none of the retained ones. -/
structure Reclaims (retained : Retained) (world world' : World) : Prop where
  db : world'.db = world.db
  transactions : world'.transactions = world.transactions
  current : world'.disk.current = world.disk.current
  checkpoints : world'.disk.checkpoints = world.disk.checkpoints
  manifests : ∀ digest ∈ retained.manifests,
    world'.disk.manifests.find? digest = world.disk.manifests.find? digest
  segments : ∀ id, retained.segments.contains id = true →
    world'.disk.segments.find? id = world.disk.segments.find? id
  wals : ∀ start ∈ retained.wals, world'.disk.wals.find? start = world.disk.wals.find? start
  oldSegments : ∀ id content, world'.disk.segments.find? id = some content →
    world.disk.segments.find? id = some content
  oldWals : ∀ start frames, world'.disk.wals.find? start = some frames →
    world.disk.wals.find? start = some frames

section Reclaims

variable {retained : Retained}

theorem Silent.reclaims (h : Silent world world') : Reclaims retained world world' := by
  constructor <;> simp_all [h.db, h.disk, h.transactions]

instance : Std.Refl (Reclaims retained) :=
  ⟨fun world => (Std.Refl.refl world : Silent world world).reclaims⟩

instance : IsTrans World (Reclaims retained) where
  trans _ _ _ h h' :=
    { db := h'.db.trans h.db
      transactions := h'.transactions.trans h.transactions
      current := h'.current.trans h.current
      checkpoints := h'.checkpoints.trans h.checkpoints
      manifests := fun digest hd => (h'.manifests digest hd).trans (h.manifests digest hd)
      segments := fun id hid => (h'.segments id hid).trans (h.segments id hid)
      wals := fun start hstart => (h'.wals start hstart).trans (h.wals start hstart)
      oldSegments := fun _ _ hfind => h.oldSegments _ _ (h'.oldSegments _ _ hfind)
      oldWals := fun _ _ hfind => h.oldWals _ _ (h'.oldWals _ _ hfind) }

theorem silent_admitDelete (bytes : Nat) : Preserves Silent (admitDelete budget bytes) :=
  silent_reclamationLimits.bind fun _ => (silent_checkReclamation _ _ _).bind fun _ =>
    silent_nextReading.bind fun _ => (preserves_pure _).ite (preserves_pure _)

/-- Removing candidates one by one keeps what removing each of them keeps. -/
theorem reclaims_removeCandidates {κ : Type} {remove : κ → Disk → Disk}
    {length : κ → Disk → Nat} {names : List κ}
    (hremove : ∀ name ∈ names, ∀ world : World,
      Reclaims retained world (world.setDisk (remove name world.disk)))
    (budget : ReclamationBudget) :
    Preserves (Reclaims retained) (removeCandidates remove length budget names) := by
  induction names generalizing budget with
  | nil => exact preserves_pure _
  | cons name rest ih =>
    refine preserves_get.bind fun world =>
      ((silent_admitDelete _ _).mono fun _ _ hs => hs.reclaims).bind fun admitted => ?_
    cases admitted with
    | none => exact preserves_pure _
    | some budget' =>
      refine Preserves.bind (fun world => hremove name (by simp) world) fun _ => ?_
      exact ih (fun other hother => hremove other (mem_cons_of_mem _ hother)) budget'

theorem reclaims_removeManifest {digest : Digest} (h : digest ∉ retained.manifests)
    (world : World) : Reclaims retained world (world.setDisk (removeManifest digest world.disk)) := by
  constructor
  case manifests =>
    intro other hother
    have hne : other ≠ digest := fun heq => h (heq ▸ hother)
    simp [removeManifest, find?_erase, hne]
  all_goals simp [removeManifest]

theorem reclaims_removeSegment {digest : Digest} (h : retained.segments.contains digest = false)
    (world : World) : Reclaims retained world (world.setDisk (removeSegment digest world.disk)) := by
  constructor
  case segments =>
    intro other hother
    have hne : other ≠ digest := by
      rintro rfl
      rw [h] at hother
      simp at hother
    simp [removeSegment, find?_erase, hne]
  case oldSegments =>
    intro id content hfind
    simp only [World.setDisk, removeSegment, find?_erase] at hfind
    split at hfind
    · simp at hfind
    · exact hfind
  all_goals simp [removeSegment]

theorem reclaims_removeWal {start : Nat} (h : start ∉ retained.wals) (world : World) :
    Reclaims retained world (world.setDisk (removeWal start world.disk)) := by
  constructor
  case wals =>
    intro other hother
    have hne : other ≠ start := fun heq => h (heq ▸ hother)
    simp [removeWal, find?_erase, hne]
  case oldWals =>
    intro other frames hfind
    simp only [World.setDisk, removeWal, find?_erase] at hfind
    split at hfind
    · simp at hfind
    · exact hfind
  all_goals simp [removeWal]

/-- Removing what is not retained keeps the invariant. -/
theorem Inv.of_reclaims (h : Inv codec world) (hcovers : retained.Covers codec world.db.manifest)
    (hr : Reclaims retained world world') :
    Inv codec world' := by
  have hdb := hr.db
  have hwal : world'.disk.wals.find? world.db.walStart = world.disk.wals.find? world.db.walStart :=
    hr.wals _ (by rw [h.walStart]; exact hcovers.wal)
  have htable : world'.logTable = world.logTable := by
    rw [World.logTable, World.logTable, hdb, hwal]
  constructor
  · rw [hdb]; exact h.options
  · rw [hdb]; exact h.coherent
  · rw [hdb]; exact h.valid
  · rw [hdb]; exact h.described
  · rw [hdb]; exact h.walStart
  · rw [hdb]; exact h.walAfter
  · rw [hdb, hr.current]; exact h.current
  · rw [hdb, hr.manifests _ hcovers.current]; exact h.stored
  · rw [hdb]
    intro segment hsegment
    rw [hr.segments _ ?_]
    · exact h.present segment hsegment
    · refine hcovers.segments (segment.descriptor codec.toSegmentCodec) ?_
      rw [h.described, mem_insertionSort]
      exact mem_map_of_mem hsegment
  · exact fun digest content hfind => h.filed digest content (hr.oldSegments _ _ hfind)
  · rw [hdb, hwal]; exact h.opened
  · rw [hdb]
    exact fun start frames hlt hfind => h.unused start frames hlt (hr.oldWals _ _ hfind)
  · rw [htable, hdb]; exact h.log
  · rw [hdb, hr.transactions]; exact h.owners
  · rw [hdb, hr.transactions]; exact h.pins

theorem Reclaims.maintains (hr : Reclaims retained world world') {prune : Bool} {safe : Nat → Prop}
    : Maintains prune safe world world' := by
  have hdb := hr.db
  constructor
  case transactions => exact hr.transactions
  case checkpoints => exact hr.checkpoints
  case stays => intro key s _; rw [hdb]; exact Stays.refl ..
  all_goals rw [hdb]

end Reclaims

section Cycles

variable {prune : Bool} {safe : Nat → Prop}

/-- Nothing was removed, or only files that neither the current manifest nor a checkpoint
names. -/
def Sweeps (codec : Codec) (world world' : World) : Prop :=
  Silent world world' ∨
    ∃ retained : Retained, retained.Rooted codec world ∧ Reclaims retained world world'

theorem sweeps_garbageCollect : Preserves (Sweeps codec) (garbageCollect codec) := by
  intro world
  have hsilent (_ : Error) (w : World) (hs : Silent world w) : Sweeps codec world w := .inl hs
  refine silent_ensureWriterReady.step_of (Std.Refl.refl world) hsilent fun _ ready hready =>
    wp_step_of hready (wp_reclamationRoots ready) hsilent ?_
  rintro ⟨retained, budget⟩ rooted hrooted hcovers
  have hcovers : retained.Rooted codec world := by
    rwa [Retained.Rooted, hready.db, hready.disk] at hcovers
  have hreclaims (_ : Error) (w : World) (hr : Reclaims retained world w) :
      Sweeps codec world w := .inr ⟨retained, hcovers, hr⟩
  refine (silent_checkRetained _ _).step_of hrooted hsilent fun budget checked hchecked => ?_
  rw [wp_bind, wp_get]
  refine wp_step_of hchecked (wp_unreachableFiles _ _ _) hsilent ?_
  rintro ⟨manifests, budget⟩ world₁ hs₁ hmanifests
  refine wp_step_of hs₁ (wp_unreachableFiles _ _ _) hsilent ?_
  rintro ⟨segments, budget⟩ world₂ hs₂ hsegments
  refine wp_step_of hs₂ (wp_unreachableFiles _ _ _) hsilent ?_
  rintro ⟨wals, budget⟩ world₃ hs₃ hwals
  refine silent_reclamationTick.step_of hs₃ hsilent fun _ ticked hticked => ?_
  dsimp only at hmanifests hsegments hwals ⊢
  refine (reclaims_removeCandidates (fun digest hdigest world => ?_) budget).step_of
    hticked.reclaims hreclaims ?_
  · rw [hmanifests] at hdigest
    exact reclaims_removeManifest (by simpa using (mem_filter.mp hdigest).2) world
  rintro ⟨_, budget⟩ removed₁ hr₁
  refine (reclaims_removeCandidates (fun digest hdigest world => ?_) budget).step_of hr₁ hreclaims
    ?_
  · rw [hsegments] at hdigest
    exact reclaims_removeSegment (by simpa using (mem_filter.mp hdigest).2) world
  rintro ⟨_, budget⟩ removed₂ hr₂
  refine (reclaims_removeCandidates (fun start hstart world => ?_) budget).step_of hr₂ hreclaims
    fun _ removed₃ hr₃ => .inr ⟨retained, hcovers, hr₃⟩
  rw [hwals] at hstart
  exact reclaims_removeWal (by simpa using (mem_filter.mp hstart).2) world

theorem upkeep_garbageCollect : Preserves (Upkeep codec prune safe) (garbageCollect codec) := by
  refine sweeps_garbageCollect.mono fun world w h hinv => ?_
  rcases h with hs | ⟨retained, hcovers, hr⟩
  · exact hs.upkeep hinv
  · exact ⟨hinv.of_reclaims (hcovers _ (.inl rfl)) hr, hr.maintains⟩

theorem upkeep_setPending (pending : Bool) : Preserves (Upkeep codec prune safe)
    (modifyDb fun db => { db with reclamationPending := pending }) := by
  intro world
  refine Grows.upkeep ?_
  constructor <;> simp_all

theorem upkeep_reclaimIfPending : Preserves (Upkeep codec prune safe) (reclaimIfPending codec) := by
  refine preserves_get.bind fun world => Preserves.ite (upkeep_garbageCollect.bind fun hasMore =>
    (upkeep_setPending hasMore).bind fun _ => Preserves.ite (preserves_fail _) (preserves_pure _))
    (preserves_pure _)

end Cycles

/-- An idle step that reclaims or finds nothing to merge keeps every read. -/
theorem wp_maintenanceStepInner (hinv : Inv codec world) (protectedSnapshots : List Nat)
    (retainAllVersions : Bool) :
    wp (maintenanceStepInner codec protectedSnapshots retainAllVersions)
      (fun progress world' => Inv codec world' ∧
        (progress = false ∨ world.db.reclamationPending = true →
          Maintains false (fun _ => True) world world') ∧
        Maintains (!retainAllVersions) (protects retainAllVersions protectedSnapshots) world world')
      (fun _ world' => Inv codec world' ∧
        Maintains (!retainAllVersions) (protects retainAllVersions protectedSnapshots) world world')
      world := by
  have hall : ∀ {w : World}, Upkeep codec false (fun _ => True) world w → Inv codec w ∧
      (∀ p : Prop, p → Maintains false (fun _ => True) world w) ∧ Maintains (!retainAllVersions)
        (protects retainAllVersions protectedSnapshots) world w :=
    fun h => ⟨(h hinv).1, fun _ _ => (h hinv).2, (h hinv).2.weaken⟩
  refine silent_ensureWriterReady.seq (fun _ _ hs => hs.upkeep hinv) fun _ ready hready => ?_
  rw [wp_bind, wp_get, wp_ite]
  split
  · rw [wp_bind]
    have hcollect : Preserves (Upkeep codec false (fun _ => True)) (garbageCollect codec) :=
      upkeep_garbageCollect
    refine hcollect.wp ?_ fun _ _ h => (hready.upkeep.trans h.weaken :
      Upkeep codec _ _ world _) hinv
    intro hasMore collected h
    obtain ⟨hinv', hkeep, hmaintains⟩ := hall (IsTrans.trans _ _ _ hready.upkeep
      (h.trans (upkeep_setPending hasMore collected)))
    exact ⟨hinv', hkeep _, hmaintains⟩
  · rename_i hpending
    rw [wp_ite]
    split
    · obtain ⟨hinv', hkeep, hmaintains⟩ := hall hready.upkeep
      exact ⟨hinv', hkeep _, hmaintains⟩
    · rw [wp_bind]
      have hg : Grows codec world ready := hready.grows
      refine wp_mono (wp_compactSegmentsInner (hinv.of_grows hg) _ _ _ _ _) ?_ ?_
      · rintro outcome world' ⟨hnone, hinv', hmaintains⟩
        refine ⟨hinv', ?_, hg.maintains.trans hmaintains⟩
        rintro (hprogress | hpending')
        · have hg' : Grows codec ready world' :=
            (hnone (by simpa using hprogress)).grows
          exact hg.maintains.trans hg'.maintains
        · rw [hready.db] at hpending
          exact absurd hpending' hpending
      · rintro _ world' ⟨⟨hinv', hmaintains⟩, -⟩
        exact ⟨hinv', hg.maintains.trans hmaintains⟩

end Rrflow.Lsm

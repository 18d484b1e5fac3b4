import Rrflow.Lsm.ManifestSpec

/-!
Which errors are those of a manifest's validation.

Validation fails with one of ten texts, and nothing else on the way to a
publication uses any of them. So a flush, a compaction or an installation that
fails otherwise did not fail because of the manifest it built.
-/

namespace Rrflow.Lsm

open Eff Checks

variable {codec : Codec}

/-- An error with which the validation of some manifest ends. -/
def ComponentError (e : Error) : Prop :=
  ∃ manifest : Manifest, manifest.validateComponents = .error e

def componentReasons : List String :=
  [ "manifest generation must be greater than zero",
    "WAL start cannot skip beyond the durable sequence",
    "the first manifest cannot name a parent",
    "later manifests require a parent digest",
    "segment has an inverted key range",
    "segment has an invalid sequence range",
    "segment must contain entries and bytes",
    "segment appears more than once",
    "segment extends beyond the durable sequence",
    "level contains overlapping or unordered segment ranges" ]

def HasReason (e : Error) : Prop := ∃ reason ∈ componentReasons, e = .invalidManifest reason

theorem SegmentDescriptor.errs_validate (segment : SegmentDescriptor) :
    Errs HasReason segment.validate := by
  refine Errs.ite (errs_error ⟨_, ?_, rfl⟩) (Errs.ite (errs_error ⟨_, ?_, rfl⟩)
    (Errs.ite (errs_error ⟨_, ?_, rfl⟩) (errs_ok ())))
  all_goals decide

theorem SegmentScan.errs_step (durable : Nat) (scan : SegmentScan) (segment : SegmentDescriptor) :
    Errs HasReason (scan.step durable segment) := by
  refine segment.errs_validate.bind fun _ => Errs.unless ⟨_, ?_, rfl⟩ (Errs.unless ⟨_, ?_, rfl⟩
    (Errs.ite (Errs.unless ⟨_, ?_, rfl⟩ (errs_ok _)) (errs_ok _)))
  all_goals decide

theorem ComponentError.hasReason {e : Error} (h : ComponentError e) : HasReason e := by
  obtain ⟨manifest, h⟩ := h
  suffices herrs : Errs HasReason manifest.validateComponents from herrs e h
  have hscan : Errs HasReason
      (manifest.segments.foldlM (SegmentScan.step manifest.durableSequence) {}) :=
    Errs.foldlM (SegmentScan.errs_step _) _ _
  unfold Manifest.validateComponents
  refine Errs.unless ⟨_, ?_, rfl⟩ (Errs.unless ⟨_, ?_, rfl⟩ (Errs.unless ⟨_, ?_, rfl⟩
    (Errs.unless ⟨_, ?_, rfl⟩ (hscan.bind fun _ => errs_ok _))))
  all_goals decide

theorem not_componentError {e : Error} (h : ¬HasReason e) : ¬ComponentError e :=
  fun hc => h hc.hasReason

theorem not_hasReason {reason : String} (h : reason ∉ componentReasons) :
    ¬HasReason (.invalidManifest reason) := by
  rintro ⟨r, hr, heq⟩
  cases heq
  exact h hr

/-- Whether an error is about a manifest. -/
def isInvalidManifest : Error → Bool
  | .invalidManifest _ => true
  | _ => false

theorem not_hasReason_of_kind {e : Error} (h : isInvalidManifest e = false) : ¬HasReason e := by
  rintro ⟨reason, -, rfl⟩
  cases h

variable {α : Type}

/-- A computation that ends with none of the texts. -/
abbrev Spared (x : Run α) : Prop := Raises (fun e => ¬HasReason e) x

abbrev Spares (x : Except Error α) : Prop := Errs (fun e => ¬HasReason e) x

theorem spares_error {e : Error} (h : isInvalidManifest e = false) :
    Spares (.error e : Except Error α) :=
  errs_error (not_hasReason_of_kind h)

theorem spared_fail {e : Error} (h : isInvalidManifest e = false) : Spared (fail e : Run α) :=
  raises_fail (not_hasReason_of_kind h)

/-- What is assumed of the physical encoding: a file is never empty, and the size limits of
the format have errors of their own. -/
structure Codec.Physical (codec : Codec) : Prop where
  bytes_ne_zero : ∀ groups, codec.bytes groups ≠ 0
  admits_error : ∀ groups, Spares (codec.admits groups)

theorem spared_admitDisk : Spared admitDisk := by
  refine Raises.bind (fun world => ?_) fun denial => ?_
  · unfold wp nextDenial
    cases world.denials <;> trivial
  · cases denial with
    | none => exact raises_pure ()
    | some numbers => exact spared_fail rfl

theorem spared_check (limits : CompactionLimits) (resource : MaintenanceResource) (n : Nat) :
    Spared (ofExcept (limits.check resource n)) :=
  raises_ofExcept ((spares_error rfl).ite (errs_ok ()))

theorem spared_checkElapsed : Spared checkElapsed := by
  refine Raises.bind (fun world => ?_) fun elapsed => raises_get.bind fun world =>
    spared_check _ _ _
  unfold wp nextReading
  cases world.readings <;> trivial

theorem spared_injectAt {β : Type} [DecidableEq β] (asStr : β → String)
    (configured : Option (β × FailureMode)) (reached : β) :
    Spared (injectAt asStr configured reached) := by
  unfold injectAt
  split
  · exact (spared_fail rfl).ite (raises_pure ())
  · exact raises_pure ()

theorem spared_ensureWriterReady : Spared ensureWriterReady :=
  raises_get.bind fun world => by
    split
    · exact spared_fail rfl
    · exact raises_pure ()

theorem spares_encodeGroups (budget : SegmentRowGroupBudget)
    (versions : List (Bytes × List VersionedValue)) (current : List Entry) :
    Spares (encodeGroups budget current versions) := by
  have hfinish : ∀ rows, Spares (finishGroup rows) := fun rows =>
    (spares_error rfl).ite (errs_ok rows)
  have hchain : ∀ key chain, Spares (chainBytes key chain) := by
    refine fun key chain => Errs.foldlM (fun total version => ?_) _ _
    refine Errs.bind ((spares_error rfl).ite (errs_ok ())) fun _ => ?_
    split
    · exact errs_ok _
    · exact spares_error rfl
  induction versions generalizing current with
  | nil =>
    exact (errs_ok _).ite ((hfinish _).bind fun group => errs_ok _)
  | cons chain rest ih =>
    exact (hchain _ _).bind fun keyBytes =>
      Errs.ite ((hfinish _).bind fun group => (ih _).bind fun groups => errs_ok _) (ih _)

theorem spares_encodeVersions (hcodec : codec.Physical) (budget : SegmentRowGroupBudget)
    (versions : List (Bytes × List VersionedValue)) :
    Spares (encodeVersions codec.toSegmentCodec budget versions) := by
  exact Errs.bind ((spares_error rfl).ite (errs_ok ())) fun _ =>
    Errs.unless (not_hasReason_of_kind rfl) ((spares_encodeGroups budget versions []).bind
      fun groups => (hcodec.admits_error groups).bind fun _ => errs_ok _)

theorem spared_writeSegment (hcodec : codec.Physical)
    (versions : List (Bytes × List VersionedValue)) : Spared (writeSegment codec versions) := by
  refine raises_get.bind fun world => Raises.bind
    (raises_ofExcept (spares_encodeVersions hcodec _ _)) fun groups => ?_
  split
  · exact Raises.unless (not_hasReason_of_kind rfl) (raises_pure _)
  · refine spared_admitDisk.bind fun _ => Raises.bind (raises_ofExcept ?_) fun content =>
      (raises_modify _).bind fun _ => raises_pure _
    refine (spares_error rfl).ite ((spares_error rfl).ite ?_)
    split
    · exact errs_ok _
    · exact spares_error rfl

theorem spared_successorWal (nextSequence : Nat) : Spared (successorWal nextSequence) := by
  refine raises_get.bind fun world => ?_
  split
  · exact (spared_fail rfl).ite (raises_pure ())
  · exact spared_admitDisk.bind fun _ => raises_modify _

variable {world : World}

/-- A valid manifest of a database fails to publish for other reasons than its components. -/
theorem wp_publish_valid (hinv : Inv codec world) {manifest : Manifest}
    (hvalid : manifest.validate = .ok ()) (expected : Option Digest) :
    wp (publish codec manifest expected) (fun _ => Published codec manifest world)
      (fun e world' => Grows codec world world' ∧ ¬HasReason e) world := by
  suffices hspared : wp (publish codec manifest expected) (fun _ _ => True)
      (fun e _ => ¬HasReason e) world from
    wp_mono (wp_and (wp_publish manifest expected) hspared) (fun _ _ h => h.1) fun _ _ h => h
  unfold publish
  rw [wp_bind, hvalid]
  refine wp_ofExcept (fun _ _ => ?_) fun _ h => by cases h
  rw [wp_bind, wp_get, wp_bind, hinv.currentManifest]
  refine wp_ofExcept (fun current _ => ?_) fun _ h => by cases h
  have hrest : Spared (persistManifest codec manifest >>= fun _ =>
      publishPointer codec manifest) := by
    refine Raises.bind ?_ fun _ => spared_admitDisk.bind fun _ => raises_modify _
    refine raises_get.bind fun world => ?_
    split
    · refine Raises.ite (raises_fail (not_hasReason ?_)) (raises_pure ())
      decide
    · exact spared_admitDisk.bind fun _ => raises_modify _
  refine Raises.unless (P := fun e => ¬HasReason e) (not_hasReason_of_kind rfl)
    (Raises.unless (P := fun e => ¬HasReason e) (not_hasReason ?_) hrest) world
  decide

theorem Inv.leveled (h : Inv codec world) : Leveled world.db.segments := by
  have hvalid := h.valid
  rw [Manifest.validate] at hvalid
  split at hvalid
  · cases hvalid
  · have haccepted := (Manifest.validateComponents_eq_ok.mp hvalid).2.2.2.2
    rw [h.described] at haccepted
    exact leveled_of_accepted haccepted

theorem Inv.walStart_le (h : Inv codec world) :
    world.db.manifest.walStartSequence ≤ saturatingAdd world.db.manifest.durableSequence 1 := by
  have hvalid := h.valid
  rw [Manifest.validate] at hvalid
  split at hvalid
  · cases hvalid
  · exact (Manifest.validateComponents_eq_ok.mp hvalid).2.1

theorem accepted_of_coherent (hcodec : codec.Physical) {db : Database} (h : db.Coherent codec)
    (hleveled : Leveled db.segments) : Accepted db.manifest.durableSequence
      ((db.descriptors codec).insertionSort descriptorLe) :=
  accepted_of_leveled hcodec.bytes_ne_zero h.settled h.distinct hleveled

theorem wp_successorManifest {overflow : String} (hoverflow : overflow ∉ componentReasons)
    {createdAt durable walStart : Nat} {segments : List SegmentDescriptor} :
    wp (successorManifest codec overflow createdAt durable walStart segments)
      (fun manifest world' => world' = world ∧ manifest.validate = .ok () ∧
        manifest.durableSequence = durable ∧ manifest.walStartSequence = walStart ∧
        manifest.segments = segments.insertionSort descriptorLe ∧
        manifest.generation = world.db.manifest.generation + 1)
      (fun e world' => world' = world ∧ (Inv codec world → walStart ≤ saturatingAdd durable 1 →
        Accepted durable (segments.insertionSort descriptorLe) → ¬HasReason e)) world := by
  unfold successorManifest
  rw [wp_bind, wp_get, wp_bind]
  refine wp_increment (fun _ => ?_) ⟨rfl, fun _ _ _ => not_hasReason hoverflow⟩
  refine wp_ofExcept (fun manifest h => ?_) fun e h => ⟨rfl, fun hinv hstart haccepted => ?_⟩
  · obtain ⟨hvalid, rfl⟩ := newManifest_eq_ok h
    exact ⟨rfl, hvalid, rfl, rfl, rfl, rfl⟩
  · have hvalid := hinv.valid
    rw [Manifest.validate] at hvalid
    split at hvalid
    · cases hvalid
    next hformat =>
      have hgeneration := (Manifest.validateComponents_eq_ok.mp hvalid).1
      have hcomponents : Manifest.validateComponents
          { applicationFormat := world.db.manifest.applicationFormat
            generation := world.db.manifest.generation + 1
            parent := some (world.db.manifest.digest codec), createdAt
            durableSequence := durable, walStartSequence := walStart
            segments := segments.insertionSort descriptorLe } = .ok () := by
        refine Manifest.validateComponents_eq_ok.mpr ⟨by simp, hstart, ?_, by simp, haccepted⟩
        rintro ⟨hone, -⟩
        dsimp only at hone
        omega
      simp [newManifest, hformat, hcomponents, bind, Except.bind, pure, Except.pure] at h

/-- How maintenance fails: readers lose nothing by it, and it is not for the components of the
manifest it built. -/
def Fails (codec : Codec) (prune : Bool) (safe : Nat → Prop) (world : World) (e : Error)
    (world' : World) : Prop :=
  (Inv codec world' ∧ Maintains prune safe world world') ∧ (codec.Physical → ¬HasReason e)

theorem Inv.fails {prune : Bool} {safe : Nat → Prop} (h : Inv codec world) (e : Error)
    (world' : World) (hg : Grows codec world world') (hreason : codec.Physical → ¬HasReason e) :
    Fails codec prune safe world e world' :=
  ⟨hg.upkeep h, hreason⟩

end Rrflow.Lsm

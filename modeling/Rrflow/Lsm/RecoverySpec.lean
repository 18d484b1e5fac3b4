import Rrflow.Lsm.History

/-!
Opening a directory.

A recovery reads the current manifest, opens the segments it names and replays
the log. From a directory that satisfies the invariant it can only fail for lack
of budget, and what it returns is the state the log stands for.

`Metered` is the calculus for the first half: a computation that succeeds charges
what it says, and one that fails was not given enough.
-/

namespace Rrflow.Lsm

open Eff Latest Recover

variable {limits : MutableLimits} {frames : List WalFrame} {r : Recovery} {table : Memtable}

/-! ### Costs -/

structure RecoveryCost where
  files : Nat := 0
  readBytes : Nat := 0
  metadataBytes : Nat := 0
  walBytes : Nat := 0
  frames : Nat := 0

namespace RecoveryCost

instance : Add RecoveryCost :=
  ⟨fun a b => ⟨a.files + b.files, a.readBytes + b.readBytes, a.metadataBytes + b.metadataBytes,
    a.walBytes + b.walBytes, a.frames + b.frames⟩⟩

theorem add_def (a b : RecoveryCost) : a + b =
    ⟨a.files + b.files, a.readBytes + b.readBytes, a.metadataBytes + b.metadataBytes,
      a.walBytes + b.walBytes, a.frames + b.frames⟩ := rfl

theorem empty_add (a : RecoveryCost) : ({} : RecoveryCost) + a = a := by
  simp [add_def]

theorem add_empty (a : RecoveryCost) : a + {} = a := rfl

end RecoveryCost

/-- What a recovery reads: the pointer, the manifest, the segments it names and the
log it starts from. -/
def openingCost (codec : Codec) (pointer : CurrentPointer) (manifest : Manifest)
    (frames : List WalFrame) : RecoveryCost :=
  { files := manifest.segments.length + 3
    readBytes := codec.pointerBytes pointer + codec.manifestBytes manifest +
      (manifest.segments.map SegmentDescriptor.bytes).sum + walBytes frames
    metadataBytes := codec.pointerBytes pointer + codec.manifestBytes manifest
    walBytes := walBytes frames
    frames := frames.length }

def Disk.recoveryCost (codec : Codec) (disk : Disk) : RecoveryCost :=
  match disk.current with
  | none => {}
  | some pointer =>
    match disk.manifests.find? pointer.manifest with
    | none => {}
    | some manifest =>
      openingCost codec pointer manifest ((disk.wals.find? manifest.walStartSequence).getD [])

/-- What is left of the limits covers the cost, and the clock stays within its
own. Counters are machine integers. -/
structure Fits (cost : RecoveryCost) (r : Recovery) : Prop where
  files : r.files + cost.files ≤ min r.limits.files u64Max
  readBytes : r.readBytes + cost.readBytes ≤ min r.limits.readBytes u64Max
  metadataBytes : r.metadataBytes + cost.metadataBytes ≤ min r.limits.metadataBytes u64Max
  walBytes : cost.walBytes ≤ min r.limits.walBytes u64Max
  frames : r.frames + cost.frames ≤ min r.limits.walFrames u64Max
  clock : ∀ elapsed ∈ r.readings, elapsed ≤ r.limits.elapsedMs

/-- The cost was charged. -/
structure Spent (cost : RecoveryCost) (r r' : Recovery) : Prop where
  limits : r'.limits = r.limits
  files : r'.files = r.files + cost.files
  readBytes : r'.readBytes = r.readBytes + cost.readBytes
  metadataBytes : r'.metadataBytes = r.metadataBytes + cost.metadataBytes
  frames : r'.frames = r.frames + cost.frames
  readings : ∀ elapsed ∈ r'.readings, elapsed ∈ r.readings

theorem Spent.refl (r : Recovery) : Spent {} r r := ⟨rfl, rfl, rfl, rfl, rfl, fun _ h => h⟩

theorem Spent.trans {a b : RecoveryCost} {r' r'' : Recovery} (h : Spent a r r')
    (h' : Spent b r' r'') : Spent (a + b) r r'' := by
  refine ⟨h'.limits.trans h.limits, ?_, ?_, ?_, ?_, fun _ hmem => h.readings _ (h'.readings _ hmem)⟩
  · rw [h'.files, h.files, RecoveryCost.add_def, Nat.add_assoc]
  · rw [h'.readBytes, h.readBytes, RecoveryCost.add_def, Nat.add_assoc]
  · rw [h'.metadataBytes, h.metadataBytes, RecoveryCost.add_def, Nat.add_assoc]
  · rw [h'.frames, h.frames, RecoveryCost.add_def, Nat.add_assoc]

theorem Fits.left {a b : RecoveryCost} (h : Fits (a + b) r) : Fits a r := by
  obtain ⟨h1, h2, h3, h4, h5, h6⟩ := h
  simp only [RecoveryCost.add_def] at h1 h2 h3 h4 h5
  exact ⟨by omega, by omega, by omega, by omega, by omega, h6⟩

/-- What fits at the start still fits after the first part was charged. -/
theorem Fits.right {a b : RecoveryCost} {r' : Recovery} (h : Fits (a + b) r) (hspent : Spent a r r')
    : Fits b r' := by
  obtain ⟨h1, h2, h3, h4, h5, h6⟩ := h
  simp only [RecoveryCost.add_def] at h1 h2 h3 h4 h5
  obtain ⟨s0, s1, s2, s3, s4, s5⟩ := hspent
  refine ⟨?_, ?_, ?_, ?_, ?_, ?_⟩
  · rw [s0, s1]; omega
  · rw [s0, s2]; omega
  · rw [s0, s3]; omega
  · rw [s0]; omega
  · rw [s0, s4]; omega
  · rw [s0]; exact fun elapsed hmem => h6 elapsed (s5 elapsed hmem)

/-- A computation that succeeds charges `cost` and returns a value in `Q`; one
that fails was short of budget, or was `refused` for another reason. -/
def Metered {α : Type} (refused : Prop) (x : Recover α) (cost : RecoveryCost) (Q : α → Prop) :
    Prop :=
  ∀ r, wp x (fun a r' => Spent cost r r' ∧ Q a) (fun _ _ => Fits cost r → refused) r

section Metered

variable {α β : Type} {refused : Prop} {a b : RecoveryCost} {Q : α → Prop} {R : β → Prop}

theorem metered_pure {v : α} (h : Q v) : Metered refused (pure v) {} Q :=
  fun r => ⟨Spent.refl r, h⟩

theorem metered_fail (e : Error) (h : refused) : Metered refused (fail e) a Q :=
  fun _ _ => h

theorem metered_ofExcept {x : Except Error α} (hok : ∀ v, x = .ok v → Q v)
    (herror : ∀ e, x = .error e → refused) : Metered refused (ofExcept x) {} Q :=
  fun r => wp_ofExcept (fun v hv => ⟨Spent.refl r, hok v hv⟩) (fun e he _ => herror e he)

theorem Metered.bind {x : Recover α} {f : α → Recover β} (hx : Metered refused x a Q)
    (hf : ∀ v, Q v → Metered refused (f v) b R) : Metered refused (x >>= f) (a + b) R := by
  intro r
  refine wp_then (hx r) ?_ fun _ _ h hfits => h hfits.left
  rintro v r' ⟨hspent, hv⟩
  refine wp_mono (hf v hv r') ?_ fun _ _ h hfits => h (hfits.right hspent)
  rintro w r'' ⟨hspent', hw⟩
  exact ⟨hspent.trans hspent', hw⟩

variable {γ : Type}

def totalCost (cost : γ → RecoveryCost) (l : List γ) : RecoveryCost :=
  l.foldr (fun c total => cost c + total) {}

theorem Metered.foldlM {f : α → γ → Recover α} {l : List γ} {v : α}
    (cost : γ → RecoveryCost) (I : List γ → α → Prop) (hinit : I [] v)
    (hstep : ∀ seen c rest v, l = seen ++ c :: rest → I seen v →
      Metered refused (f v c) (cost c) (I (seen ++ [c]))) :
    Metered refused (foldlM f v l) (totalCost cost l) (I l) := by
  suffices h : ∀ (rest seen : List γ) (v : α), l = seen ++ rest → I seen v →
      Metered refused (Eff.foldlM f v rest) (totalCost cost rest) (I l) from h l [] v rfl hinit
  intro rest
  induction rest with
  | nil =>
    intro seen v hl hv
    rw [List.append_nil] at hl
    subst hl
    exact metered_pure hv
  | cons c rest ih =>
    intro seen v hl hv
    refine (hstep seen c rest v hl hv).bind fun v' hv' => ?_
    exact ih (seen ++ [c]) v' (by rw [hl, List.append_assoc]; rfl) hv'

theorem totalCost_empty (l : List γ) : totalCost (fun _ => {}) l = {} := by
  induction l with
  | nil => rfl
  | cons c l ih =>
    show ({} : RecoveryCost) + totalCost (fun _ => {}) l = {}
    rw [ih]
    rfl

theorem totalCost_segments (segments : List SegmentDescriptor) :
    totalCost (fun segment => { files := 1, readBytes := segment.bytes }) segments =
      { files := segments.length, readBytes := (segments.map SegmentDescriptor.bytes).sum } := by
  induction segments with
  | nil => rfl
  | cons segment rest ih =>
    show _ + totalCost _ rest = _
    rw [ih]
    simp [RecoveryCost.add_def, Nat.add_comm]

theorem totalCost_frames (l : List γ) :
    totalCost (fun _ => { frames := 1 }) l = { frames := l.length } := by
  induction l with
  | nil => rfl
  | cons c l ih =>
    show _ + totalCost _ l = _
    rw [ih]
    simp [RecoveryCost.add_def, Nat.add_comm]

theorem Metered.imp {Q' : α → Prop} {x : Recover α} (h : Metered refused x a Q)
    (himp : ∀ v, Q v → Q' v) : Metered refused x a Q' :=
  fun r => wp_mono (h r) (fun v _ hv => ⟨hv.1, himp v hv.2⟩) fun _ _ he => he

theorem Metered.cost_eq {x : Recover α} (h : Metered refused x a Q) (heq : a = b) :
    Metered refused x b Q :=
  heq ▸ h

/-! ### The charges -/

theorem wp_check {resource : RecoveryResource} {limit observed : Nat} {Q : Unit → Recovery → Prop}
    {E : Error → Recovery → Prop} (hok : observed ≤ limit → Q () r)
    (herror : limit < observed → ∀ e, E e r) :
    wp (check resource limit observed) Q E r := by
  unfold check
  rw [wp_ite]
  split
  · next h => exact herror h _
  · next h => exact hok (not_lt.mp h)

theorem metered_tick : Metered refused tick {} (fun _ => True) := by
  intro r
  unfold tick
  dsimp only [wp]
  cases hreadings : r.readings with
  | nil => exact ⟨Spent.refl r, trivial⟩
  | cons elapsed rest =>
    have hmem : elapsed ∈ r.readings := by rw [hreadings]; exact List.mem_cons_self ..
    refine wp_check (fun _ => ⟨⟨rfl, rfl, rfl, rfl, rfl, ?_⟩, trivial⟩) fun hlt _ hfits => ?_
    · rw [hreadings]
      exact fun _ h => List.mem_cons_of_mem _ h
    · exact absurd (hfits.clock elapsed hmem) (not_le.mpr hlt)

theorem Metered.after_tick {x : Recover α} (h : Metered refused x a Q) :
    Metered refused (tick >>= fun _ => x) a Q :=
  (metered_tick.bind fun _ _ => h).cost_eq (RecoveryCost.empty_add a)

theorem metered_file (bytes : Nat) :
    Metered refused (file bytes) { files := 1, readBytes := bytes } (fun _ => True) := by
  refine Metered.after_tick fun r => ?_
  have hfiles : Fits { files := 1, readBytes := bytes } r →
      r.files + 1 ≤ min r.limits.files u64Max := fun hfits => hfits.files
  have hread : Fits { files := 1, readBytes := bytes } r →
      r.readBytes + bytes ≤ min r.limits.readBytes u64Max := fun hfits => hfits.readBytes
  rw [wp_bind, wp_get]
  cases hfilesNext : checkedAdd r.files 1 with
  | none =>
    intro hfits
    have := checkedAdd_eq_none hfilesNext
    have := hfiles hfits
    omega
  | some files =>
    obtain ⟨rfl, -⟩ := checkedAdd_eq_some hfilesNext
    cases hreadNext : checkedAdd r.readBytes bytes with
    | none =>
      intro hfits
      have := checkedAdd_eq_none hreadNext
      have := hread hfits
      omega
    | some read =>
      obtain ⟨rfl, -⟩ := checkedAdd_eq_some hreadNext
      rw [wp_bind]
      refine wp_check (fun _ => ?_) fun hlt _ hfits => ?_
      · rw [wp_bind]
        refine wp_check (fun _ => ⟨⟨rfl, rfl, rfl, rfl, rfl, fun _ h => h⟩, trivial⟩)
          fun hlt _ hfits => ?_
        have := hread hfits
        omega
      · have := hfiles hfits
        omega

theorem metered_metadata (bytes : Nat) :
    Metered refused (metadata bytes)
      { files := 1, readBytes := bytes, metadataBytes := bytes } (fun _ => True) := by
  refine Metered.after_tick fun r => ?_
  have hmetadata : Fits { files := 1, readBytes := bytes, metadataBytes := bytes } r →
      r.metadataBytes + bytes ≤ min r.limits.metadataBytes u64Max :=
    fun hfits => hfits.metadataBytes
  rw [wp_bind, wp_get]
  cases hnext : checkedAdd r.metadataBytes bytes with
  | none =>
    intro hfits
    have := checkedAdd_eq_none hnext
    have := hmetadata hfits
    omega
  | some next =>
    obtain ⟨rfl, -⟩ := checkedAdd_eq_some hnext
    rw [wp_bind]
    refine wp_check (fun _ => ?_) fun hlt _ hfits => ?_
    · refine wp_then (metered_file bytes r) ?_ fun _ _ h hfits => h ?_
      · rintro _ r' ⟨hfile, -⟩
        rw [wp_bind, wp_modify]
        have hspent : Spent { files := 1, readBytes := bytes, metadataBytes := bytes } r
            { r' with metadataBytes := r.metadataBytes + bytes } :=
          ⟨hfile.limits, hfile.files, hfile.readBytes, rfl, hfile.frames, hfile.readings⟩
        refine wp_mono (metered_tick _) ?_ fun _ _ h hfits => h (Fits.right hfits hspent)
        rintro _ r'' ⟨hticked, -⟩
        exact ⟨hspent.trans hticked, trivial⟩
      · have hsplit : ({ files := 1, readBytes := bytes, metadataBytes := bytes } : RecoveryCost) =
            { files := 1, readBytes := bytes } + { metadataBytes := bytes } := by
          simp [RecoveryCost.add_def]
        rw [hsplit] at hfits
        exact hfits.left
    · have := hmetadata hfits
      omega

theorem metered_wal (bytes : Nat) :
    Metered refused (wal bytes) { files := 1, readBytes := bytes, walBytes := bytes }
      (fun _ => True) := by
  intro r
  have hsplit : ({ files := 1, readBytes := bytes, walBytes := bytes } : RecoveryCost) =
      { files := 1, readBytes := bytes } + { walBytes := bytes } := by
    simp [RecoveryCost.add_def]
  unfold wal
  rw [wp_bind, wp_get, wp_bind]
  refine wp_check (fun _ => ?_) fun hlt _ hfits => ?_
  · refine wp_mono (metered_file bytes r) ?_ fun _ _ h hfits => h ?_
    · rintro _ r' ⟨hspent, -⟩
      exact ⟨⟨hspent.limits, hspent.files, hspent.readBytes, hspent.metadataBytes, hspent.frames,
        hspent.readings⟩, trivial⟩
    · rw [hsplit] at hfits
      exact hfits.left
  · have : bytes ≤ min r.limits.walBytes u64Max := hfits.walBytes
    omega

theorem metered_frame : Metered refused frame { frames := 1 } (fun _ => True) := by
  refine Metered.after_tick fun r => ?_
  have hframes : Fits { frames := 1 } r → r.frames + 1 ≤ min r.limits.walFrames u64Max :=
    fun hfits => hfits.frames
  rw [wp_bind, wp_get]
  cases hnext : checkedAdd r.frames 1 with
  | none =>
    intro hfits
    have := checkedAdd_eq_none hnext
    have := hframes hfits
    omega
  | some next =>
    obtain ⟨rfl, -⟩ := checkedAdd_eq_some hnext
    rw [wp_bind]
    refine wp_check (fun _ => ⟨⟨rfl, rfl, rfl, rfl, rfl, fun _ h => h⟩, trivial⟩)
      fun hlt _ hfits => ?_
    have := hframes hfits
    omega

end Metered

theorem replayLog_cons {table' : Memtable} {frame : WalFrame} {rest : List WalFrame} :
    replayLog limits table (frame :: rest) = .ok table' ↔
      ∃ middle, table.applyOwnedRecovered frame.batch frame.firstSequence frame.lastSequence limits
          = .ok middle ∧ replayLog limits middle rest = .ok table' := by
  rw [replayLog, List.foldlM_cons]
  cases table.applyOwnedRecovered frame.batch frame.firstSequence frame.lastSequence limits with
  | error e => simp [bind, Except.bind]
  | ok middle => simp [bind, Except.bind, replayLog]

/-- The limits decide whether a log replays, not what it replays to. -/
theorem replayLog_unique {limits' : MutableLimits} {a b : Memtable}
    (ha : replayLog limits table frames = .ok a) (hb : replayLog limits' table frames = .ok b) :
    a = b := by
  induction frames generalizing table with
  | nil =>
    cases ha
    cases hb
    rfl
  | cons frame rest ih =>
    obtain ⟨m, hm, ha⟩ := replayLog_cons.mp ha
    obtain ⟨m', hm', hb⟩ := replayLog_cons.mp hb
    have heq := (applyOwnedRecovered_eq_ok.mp hm).2.symm.trans (applyOwnedRecovered_eq_ok.mp hm').2
    cases heq
    exact ih ha hb

theorem replayLog_monotone {table' : Memtable} (h : replayLog limits table frames = .ok table')
    (hle : table.maximumSequence ≤ u64Max) :
    table.maximumSequence ≤ table'.maximumSequence := by
  induction frames generalizing table with
  | nil =>
    cases h
    exact le_rfl
  | cons frame rest ih =>
    obtain ⟨middle, hmiddle, h⟩ := replayLog_cons.mp h
    obtain ⟨hfirst, hlast, hle', hmax, -⟩ :=
      Memtable.applyWriteBatch_eq_ok (applyOwnedRecovered_eq_ok.mp hmiddle).2
    have hlen := frame.batch.len_pos
    have := ih h (by omega)
    rw [saturatingAdd] at hfirst
    omega

theorem replayLog_next {seen rest : List WalFrame} {frame : WalFrame} {start middle : Memtable}
    (h : replayLog limits start (seen ++ frame :: rest) = .ok table)
    (hroom : table.maximumSequence < u64Max) (hseen : replayLog limits start seen = .ok middle) :
    ∃ next, middle.applyOwnedRecovered frame.batch frame.firstSequence frame.lastSequence limits
        = .ok next ∧ frame.firstSequence = middle.maximumSequence + 1 ∧
      frame.lastSequence < u64Max := by
  rw [replayLog_append, hseen] at h
  obtain ⟨next, hnext, hrest⟩ := replayLog_cons.mp h
  obtain ⟨hfirst, hlast, hle, hmax, -⟩ :=
    Memtable.applyWriteBatch_eq_ok (applyOwnedRecovered_eq_ok.mp hnext).2
  have hlen := frame.batch.len_pos
  have hmonotone := replayLog_monotone hrest (by omega)
  refine ⟨next, hnext, ?_, by omega⟩
  rw [saturatingAdd] at hfirst
  omega

/-! ### Opening a directory that satisfies the invariant -/

section Open

variable {codec : Codec} {world : World} {refused : Prop}

theorem metered_currentManifest (hinv : Inv codec world) :
    Metered refused (currentManifest codec world.disk)
      ({ files := 1
         readBytes := codec.pointerBytes ⟨world.db.manifest.digest codec, world.db.manifest.generation⟩
         metadataBytes :=
          codec.pointerBytes ⟨world.db.manifest.digest codec, world.db.manifest.generation⟩ } +
        { files := 1
          readBytes := codec.manifestBytes world.db.manifest
          metadataBytes := codec.manifestBytes world.db.manifest })
      (fun manifest => manifest = world.db.manifest) := by
  unfold currentManifest
  rw [hinv.current]
  refine (metered_metadata _).bind fun _ _ => ?_
  rw [hinv.stored, hinv.currentManifest]
  refine ((metered_metadata _).bind fun _ _ => ?_).cost_eq (RecoveryCost.add_empty _)
  exact metered_pure rfl

theorem metered_openExpected (hinv : Inv codec world) {segment : Segment}
    (hsegment : segment ∈ world.db.segments) :
    Metered refused
      (openExpected codec world.disk (segment.descriptor codec.toSegmentCodec)) {}
      (fun opened => opened = segment) := by
  refine Metered.after_tick ?_
  have hfind : world.disk.segments.find? (segment.descriptor codec.toSegmentCodec).id =
      some segment.content := hinv.present segment hsegment
  rw [hfind]
  simp only [Segment.descriptor, SegmentContent.descriptor, ne_eq, not_true_eq_false, if_false]
  exact metered_pure rfl

theorem metered_openSegments (hinv : Inv codec world) :
    Metered refused
      (openSegments codec world.disk world.db.manifest.segments) {}
      (fun segments => segments.map (Segment.descriptor codec.toSegmentCodec) =
        world.db.manifest.segments ∧ ∀ segment ∈ segments, segment ∈ world.db.segments) := by
  refine (Metered.foldlM (fun _ => {}) (fun seen (segments : List Segment) =>
    segments.map (Segment.descriptor codec.toSegmentCodec) = seen ∧
      ∀ segment ∈ segments, segment ∈ world.db.segments) ⟨rfl, by simp⟩ ?_).cost_eq
    (totalCost_empty _)
  rintro seen expected rest segments hsplit ⟨hmap, hall⟩
  have hmem : expected ∈ world.db.manifest.segments := by rw [hsplit]; simp
  rw [hinv.described, (List.perm_insertionSort _ _).mem_iff] at hmem
  obtain ⟨segment, hsegment, rfl⟩ := List.mem_map.mp hmem
  refine ((metered_openExpected hinv hsegment).bind ?_).cost_eq (RecoveryCost.add_empty _)
  rintro _ rfl
  refine metered_pure ⟨by rw [List.map_append, hmap]; rfl, fun other hother => ?_⟩
  rcases List.mem_append.mp hother with hother | hother
  · exact hall other hother
  · rw [List.mem_singleton.mp hother]
    exact hsegment

theorem metered_chargeSegments {segments : List SegmentDescriptor}
    (hsum : u64Max < (segments.map SegmentDescriptor.bytes).sum → refused) :
    Metered refused (chargeSegments segments)
      { files := segments.length, readBytes := (segments.map SegmentDescriptor.bytes).sum }
      (fun total => total = (segments.map SegmentDescriptor.bytes).sum) := by
  refine (Metered.foldlM (fun segment => { files := 1, readBytes := segment.bytes })
    (fun seen total => total = (seen.map SegmentDescriptor.bytes).sum) rfl ?_).cost_eq
    (totalCost_segments segments)
  rintro seen segment rest _ hsplit rfl
  refine ((metered_file segment.bytes).bind fun _ _ => ?_).cost_eq (RecoveryCost.add_empty _)
  cases hnext : checkedAdd (seen.map SegmentDescriptor.bytes).sum segment.bytes with
  | none =>
    refine metered_fail _ (hsum ?_)
    have := checkedAdd_eq_none hnext
    rw [hsplit]
    simp only [List.map_append, List.map_cons, List.sum_append, List.sum_cons]
    omega
  | some total =>
    obtain ⟨rfl, -⟩ := checkedAdd_eq_some hnext
    exact metered_pure (by simp)

theorem sum_encodedLen_le (frames : List WalFrame) :
    (frames.map (fun frame => frame.batch.encodedLen)).sum ≤
      (frames.map (fun frame => recordHeaderBytes + frame.batch.encodedLen)).sum := by
  induction frames with
  | nil => exact le_rfl
  | cons frame rest ih =>
    simp only [List.map_cons, List.sum_cons]
    omega

/-- A log that replays with room to spare. -/
def Replays (limits : MutableLimits) (durable : Nat) (frames : List WalFrame) : Prop :=
  walBytes frames ≤ u64Max ∧ ∃ table, replayLog limits (.atSequence durable) frames = .ok table ∧
    table.maximumSequence < u64Max

theorem metered_replay {durable : Nat} (hgood : ¬refused → Replays limits durable frames) :
    Metered refused
      (Eff.foldlM (replayFrame limits)
        { memtable := .atSequence durable, expectedSequence := durable + 1 } frames)
      { frames := frames.length }
      (fun replay => replayLog limits (.atSequence durable) frames = .ok replay.memtable ∧
        replay.expectedSequence = replay.memtable.maximumSequence + 1) := by
  refine ((Metered.foldlM (fun _ => { frames := 1 }) (fun seen (replay : Recover.Replay) =>
    (replayLog limits (.atSequence durable) seen = .ok replay.memtable ∧
      replay.expectedSequence = replay.memtable.maximumSequence + 1) ∧
      replay.payloadBytes = (seen.map (fun frame => frame.batch.encodedLen)).sum)
    ⟨⟨rfl, rfl⟩, rfl⟩ ?_).cost_eq (totalCost_frames _)).imp fun _ h => h.1
  rintro seen frame rest replay hsplit ⟨⟨hseen, hexpected⟩, hpayload⟩
  refine (metered_frame.bind fun _ _ => ?_).cost_eq (RecoveryCost.add_empty _)
  -- unless it is refused, the log has this frame next and its payload is counted
  have hnext : ¬refused → ∃ next, replay.memtable.applyOwnedRecovered frame.batch
      frame.firstSequence frame.lastSequence limits = .ok next ∧
      frame.firstSequence = replay.expectedSequence ∧ frame.lastSequence < u64Max ∧
      replay.payloadBytes + frame.batch.encodedLen ≤ u64Max := by
    intro hr
    obtain ⟨hbytes, table, htable, hroom⟩ := hgood hr
    rw [hsplit] at htable hbytes
    obtain ⟨next, hnext, hfirst, hlast⟩ := replayLog_next htable hroom hseen
    refine ⟨next, hnext, hfirst.trans hexpected.symm, hlast, ?_⟩
    have := sum_encodedLen_le seen
    simp only [walBytes, List.map_append, List.map_cons, List.sum_append, List.sum_cons] at hbytes
    omega
  dsimp only
  split
  · next hfirst =>
      refine metered_fail _ (by_contra fun hr => ?_)
      obtain ⟨next, -, hsame, -⟩ := hnext hr
      exact hfirst hsame
  · cases hpay : checkedAdd replay.payloadBytes frame.batch.encodedLen with
    | none =>
      refine metered_fail _ (by_contra fun hr => ?_)
      obtain ⟨next, -, -, -, hle⟩ := hnext hr
      exact absurd hle (not_le.mpr (checkedAdd_eq_none hpay))
    | some payload =>
      obtain ⟨rfl, -⟩ := checkedAdd_eq_some hpay
      refine ((metered_ofExcept (Q := fun memtable => replay.memtable.applyOwnedRecovered
        frame.batch frame.firstSequence frame.lastSequence limits = .ok memtable)
        (fun _ h => h) (fun e he => by_contra fun hr => ?_)).bind fun memtable happly => ?_).cost_eq
        (RecoveryCost.empty_add _)
      · obtain ⟨next, hok, -⟩ := hnext hr
        rw [he] at hok
        simp at hok
      · cases hadd : checkedAdd frame.lastSequence 1 with
        | none =>
          refine metered_fail _ (by_contra fun hr => ?_)
          obtain ⟨next, -, -, hlt, -⟩ := hnext hr
          exact absurd (checkedAdd_eq_none hadd) (not_lt.mpr hlt)
        | some expected =>
          obtain ⟨rfl, -⟩ := checkedAdd_eq_some hadd
          refine metered_pure ⟨⟨replayLog_concat.mpr ⟨_, hseen, happly⟩, ?_⟩, ?_⟩
          · have hmax := (Memtable.applyWriteBatch_eq_ok
              (applyOwnedRecovered_eq_ok.mp happly).2).2.2.2.1
            show frame.lastSequence + 1 = memtable.maximumSequence + 1
            rw [hmax]
          · simp [hpayload]

structure Recovered (codec : Codec) (options : DatabaseOptions) (world : World) (db : Database) :
    Prop where
  valid : options.validate = .ok ()
  configured : db.options = options
  manifest : db.manifest = world.db.manifest
  walStart : db.walStart = world.db.manifest.walStartSequence
  walNext : db.walNextSequence = db.snapshot + 1
  log : replayLog options.mutableLimits (.atSequence world.db.manifest.durableSequence)
    ((world.disk.wals.find? world.db.walStart).getD []) = .ok db.memtable
  descriptors : db.descriptors codec = world.db.manifest.segments
  segments : ∀ segment ∈ db.segments, segment ∈ world.db.segments
  index : db.pointIndex = .new world.db.manifest.segments
  ready : db.writerRequiresReopen = none
  transactions : db.transactionSnapshots = {}

theorem Inv.recoveryCost_eq (hinv : Inv codec world)
    (hframes : world.disk.wals.find? world.db.walStart = some frames) :
    world.disk.recoveryCost codec =
      openingCost codec ⟨world.db.manifest.digest codec, world.db.manifest.generation⟩
        world.db.manifest frames := by
  rw [hinv.walStart] at hframes
  rw [Disk.recoveryCost, hinv.current]
  dsimp only
  rw [hinv.stored]
  dsimp only
  rw [hframes, Option.getD_some]

theorem metered_replayWal (hinv : Inv codec world)
    (hframes : world.disk.wals.find? world.db.walStart = some frames)
    (hgood : ¬refused → Replays limits world.db.manifest.durableSequence frames) :
    Metered refused (replayWal limits world.disk world.db.manifest)
      ({ files := 1, readBytes := walBytes frames, walBytes := walBytes frames } +
        { frames := frames.length })
      (fun replay =>
        replayLog limits (.atSequence world.db.manifest.durableSequence) frames
          = .ok replay.memtable ∧
        replay.expectedSequence = replay.memtable.maximumSequence + 1) := by
  refine Metered.after_tick ?_
  rw [hinv.walStart] at hframes
  rw [hframes]
  dsimp only
  rw [hinv.walAfter, if_neg (Nat.succ_ne_zero _)]
  refine (metered_wal _).bind fun _ _ => ?_
  refine ((metered_replay hgood).bind fun replay hreplay => ?_).cost_eq (RecoveryCost.add_empty _)
  exact Metered.after_tick (metered_pure hreplay)

/-- Opening fails only when the options are invalid, the log does not replay under
them, or the budget is short. -/
theorem metered_openDatabase (refused : Prop) (hinv : Inv codec world)
    (options : DatabaseOptions) (owner : Nat)
    (hoptions : options.validate ≠ .ok () → refused)
    (hlog : (∀ table, replayLog options.mutableLimits
      (.atSequence world.db.manifest.durableSequence)
      ((world.disk.wals.find? world.db.walStart).getD []) ≠ .ok table) → refused)
    (hbytes : u64Max < (world.disk.recoveryCost codec).readBytes → refused) :
    Metered refused (Recover.openDatabase codec options owner world.disk)
      (world.disk.recoveryCost codec) (Recovered codec options world) := by
  obtain ⟨frames, hframes⟩ := Option.isSome_iff_exists.mp hinv.opened
  rw [hinv.recoveryCost_eq hframes, openingCost] at hbytes ⊢
  dsimp only at hbytes
  have hgood : ¬refused → Replays options.mutableLimits world.db.manifest.durableSequence frames := by
    intro hr
    refine ⟨by_contra fun hlt => hr (hbytes (by omega)), ?_⟩
    rw [hframes, Option.getD_some] at hlog
    obtain ⟨table, htable⟩ := not_forall.mp (mt hlog hr)
    obtain ⟨old, hold, hroom, -⟩ := hinv.log
    rw [World.logTable, hframes, Option.getD_some] at hold
    refine ⟨table, not_not.mp htable, ?_⟩
    rwa [replayLog_unique (not_not.mp htable) hold]
  -- the parts of the cost, in the order they are charged
  have hparts : ∀ pointer manifest segments count wal length : Nat,
      ({ files := count + 3, readBytes := pointer + manifest + segments + wal
         metadataBytes := pointer + manifest, walBytes := wal, frames := length } : RecoveryCost) =
        {} + ((({ files := 1, readBytes := pointer, metadataBytes := pointer } : RecoveryCost) +
          { files := 1, readBytes := manifest, metadataBytes := manifest }) +
        (({ files := count, readBytes := segments } : RecoveryCost) +
        ({} + ((({ files := 1, readBytes := wal, walBytes := wal } : RecoveryCost) +
          { frames := length }) + {})))) := by
    intro pointer manifest segments count wal length
    simp only [RecoveryCost.add_def]
    congr 1 <;> omega
  rw [hparts]
  refine Metered.bind (Q := fun _ => options.validate = .ok ())
    (metered_ofExcept (fun _ h => h) fun e he => hoptions (by rw [he]; simp)) fun _ hvalid => ?_
  refine (metered_currentManifest hinv).bind fun manifest hmanifest => ?_
  rw [hmanifest]
  refine (metered_chargeSegments fun hlt => hbytes (by omega)).bind fun _ _ => ?_
  refine (metered_openSegments hinv).bind fun segments hsegments => ?_
  refine (metered_replayWal hinv hframes hgood).bind fun replay hreplay => metered_pure ?_
  exact
    { valid := hvalid
      configured := rfl
      manifest := rfl
      walStart := rfl
      walNext := hreplay.2
      log := by rw [hframes]; exact hreplay.1
      descriptors := hsegments.1
      segments := hsegments.2
      index := rfl
      ready := rfl
      transactions := rfl }

def Admits (codec : Codec) (options : DatabaseOptions) (disk : Disk) (readings : List Nat) : Prop :=
  Fits (disk.recoveryCost codec) { limits := options.recovery, readings }

/-- A directory that satisfies the invariant opens, under the options it was
written with, whenever their limits admit it. -/
theorem exists_openDatabase (hinv : Inv codec world) {readings : List Nat}
    (hadmits : Admits codec world.db.options world.disk readings) (owner : Nat) :
    ∃ db, openDatabase codec world.db.options owner world.disk readings = .ok db ∧
      Recovered codec world.db.options world db := by
  have hlog : ¬∀ table, world.logTable ≠ .ok table := by
    obtain ⟨table, htable, -⟩ := hinv.log
    exact fun h => h table htable
  have hbytes : ¬u64Max < (world.disk.recoveryCost codec).readBytes := by
    have := hadmits.readBytes
    omega
  have hmetered := metered_openDatabase False hinv world.db.options owner
    (fun h => h hinv.options) hlog hbytes { limits := world.db.options.recovery, readings }
  unfold openDatabase
  rcases hrun : Recover.openDatabase codec world.db.options owner world.disk
    { limits := world.db.options.recovery, readings } with ⟨outcome, r⟩
  have houtcome := wp_eq hmetered hrun
  cases outcome with
  | error e => exact (houtcome hadmits).elim
  | ok db => exact ⟨db, rfl, houtcome.2⟩

theorem recovered_of_openDatabase (hinv : Inv codec world) {options : DatabaseOptions}
    {owner : Nat} {readings : List Nat} {db : Database}
    (hopen : openDatabase codec options owner world.disk readings = .ok db) :
    Recovered codec options world db := by
  have hmetered := metered_openDatabase True hinv options owner
    (fun _ => trivial) (fun _ => trivial) (fun _ => trivial)
    { limits := options.recovery, readings }
  unfold openDatabase at hopen
  rcases hrun : Recover.openDatabase codec options owner world.disk
    { limits := options.recovery, readings } with ⟨outcome, r⟩
  have houtcome := wp_eq hmetered hrun
  rw [hrun] at hopen
  obtain rfl : outcome = .ok db := hopen
  exact houtcome.2

theorem segmentDescriptor_injective (codec : Codec) :
    Function.Injective (Segment.descriptor codec.toSegmentCodec) := by
  rintro ⟨⟨groups, hgroups⟩, level⟩ ⟨⟨groups', hgroups'⟩, level'⟩ h
  obtain rfl : groups = groups' := codec.sha256_injective (congrArg SegmentDescriptor.id h)
  obtain rfl : level = level' := congrArg SegmentDescriptor.level h
  rfl

theorem perm_of_descriptors {segments : List Segment} {db : Database}
    (h : segments.map (Segment.descriptor codec.toSegmentCodec) =
      (db.descriptors codec).insertionSort descriptorLe) : segments.Perm db.segments := by
  refine (List.map_perm_map_iff (segmentDescriptor_injective codec)).mp ?_
  rw [h]
  exact List.perm_insertionSort ..

namespace Recovered

variable {options : DatabaseOptions} {db : Database}

section

variable (h : Recovered codec options world db)

include h

theorem perm (hinv : Inv codec world) : db.segments.Perm world.db.segments :=
  perm_of_descriptors (h.descriptors.trans hinv.described)

theorem segmentHeld_perm (hinv : Inv codec world) (key : Bytes) :
    (db.segmentHeld key).Perm (world.db.segmentHeld key) :=
  ((h.perm hinv).map _).flatten

theorem logTable (hinv : Inv codec world) :
    world.logTable = .ok db.memtable ∧ db.memtable.maximumSequence < u64Max := by
  obtain ⟨table, htable, hroom, -⟩ := hinv.log
  obtain rfl := replayLog_unique htable h.log
  exact ⟨htable, hroom⟩

theorem coherent (hinv : Inv codec world) : db.Coherent codec := by
  constructor
  · rw [h.manifest]
    exact replayLog_ordered h.log (h.logTable hinv).2 (Memtable.ordered_atSequence _)
  · intro key v hv
    rw [h.manifest]
    exact hinv.coherent.settled key v ((h.segmentHeld_perm hinv key).mem_iff.mp hv)
  · intro key
    exact (((h.segmentHeld_perm hinv key).map _).nodup_iff).mpr (hinv.coherent.distinct key)
  · rw [h.index, h.descriptors]

/-- The process that opened the directory satisfies the invariant. -/
theorem inv (hinv : Inv codec world) : Inv codec { world with db, transactions := ∅ } := by
  have hmanifest := h.manifest
  have hstart : db.walStart = world.db.walStart := h.walStart.trans hinv.walStart.symm
  constructor
  case options => rw [h.configured]; exact h.valid
  case coherent => exact h.coherent hinv
  case valid => rw [hmanifest]; exact hinv.valid
  case described =>
    rw [hmanifest, h.descriptors, hinv.described, insertionSort_insertionSort]
  case walStart => rw [h.walStart, hmanifest]
  case walAfter => rw [hmanifest]; exact hinv.walAfter
  case current => rw [hmanifest]; exact hinv.current
  case stored => rw [hmanifest]; exact hinv.stored
  case present => exact fun segment hsegment => hinv.present segment (h.segments segment hsegment)
  case filed => exact hinv.filed
  case opened => rw [hstart]; exact hinv.opened
  case unused => rw [hstart]; exact hinv.unused
  case log =>
    refine ⟨db.memtable, ?_, (h.logTable hinv).2, fun _ => ⟨rfl, h.walNext⟩⟩
    rw [World.logTable]
    rw [h.configured, hmanifest, hstart]
    exact h.log
  case owners => intro id transaction hfind; simp at hfind
  case pins => rw [h.transactions]; exact List.Perm.refl _

end

end Recovered

end Open

end Rrflow.Lsm

import Rrflow.Lsm.Wal

/-!
Every cut of a log recovers to the frames it contains.

A log written by successful appends is the file header followed by the encoded
frames. The replay of such a file, cut anywhere after the header, is described by
`whole`: the frames that lie before the cut. The step lemmas are about one frame,
whole or cut; the run lemma `replayFrames_cut` is an induction over the frames.
-/

namespace Rrflow.Lsm.Wal

open Octets Checks List

variable {crc : Crc}

variable {writer : WalWriter} {next : U64} {cut : Nat}

/-! ### Frames -/

def headerOf (crc : Crc) (batch : WalBatch) : Bytes :=
  recordMagic ++ checkedFields batch ++ bigEndian 4 (checksumOf crc batch)

def frame (crc : Crc) (batch : WalBatch) : Bytes := headerOf crc batch ++ batch.payload

def frames (crc : Crc) (batches : List WalBatch) : Bytes := batches.flatMap (frame crc)

@[simp] theorem length_checkedFields (batch : WalBatch) : (checkedFields batch).length = 24 := by
  simp [checkedFields]

@[simp] theorem length_headerOf (batch : WalBatch) :
    (headerOf crc batch).length = recordHeaderBytes := by
  simp [headerOf, recordMagic, recordHeaderBytes]

@[simp] theorem length_frame (batch : WalBatch) :
    (frame crc batch).length = recordHeaderBytes + batch.payload.length := by
  rw [frame, length_append, length_headerOf]

@[simp] theorem frames_nil : frames crc [] = [] := rfl

@[simp] theorem frames_cons (batch : WalBatch) (rest : List WalBatch) :
    frames crc (batch :: rest) = frame crc batch ++ frames crc rest := rfl

@[simp] theorem frames_append (l₁ l₂ : List WalBatch) :
    frames crc (l₁ ++ l₂) = frames crc l₁ ++ frames crc l₂ := flatMap_append

@[simp] theorem length_fileHeader : (fileHeader crc).length = walHeaderBytes := by
  simp [fileHeader, fileHeaderFields, fileMagic, walHeaderBytes]

theorem validateFileHeader_fileHeader : validateFileHeader crc (fileHeader crc) = .ok () := by
  have hfields : fileHeaderFields.length = 12 := by decide
  have hfront : slice 0 12 (fileHeader crc) = fileHeaderFields := by
    rw [fileHeader, slice_append_of_le (by omega), slice_self (by omega)]
  have hback : slice 12 16 (fileHeader crc) = bigEndian 4 (crc [fileHeaderFields]).val := by
    rw [fileHeader, slice_append_of_ge (by omega), hfields, slice_self (by simp)]
  have hcrc : (crc [fileHeaderFields]).val < 256 ^ 4 := (crc [fileHeaderFields]).isLt
  have hmagic : slice 0 8 (fileHeader crc) = fileMagic := by
    rw [fileHeader, slice_append_of_le (by omega)]
    decide
  have hversion : ofBigEndian (slice 8 10 (fileHeader crc)) = formatVersion := by
    rw [fileHeader, slice_append_of_le (by omega)]
    decide
  have hlength : ofBigEndian (slice 10 12 (fileHeader crc)) = walHeaderBytes := by
    rw [fileHeader, slice_append_of_le (by omega)]
    decide
  simp [validateFileHeader, ensure, hmagic, hversion, hlength, hfront, hback,
    ofBigEndian_bigEndian hcrc, bind, Except.bind]

/-- What `validate` promises about a batch. -/
structure WalBatch.Valid (batch : WalBatch) : Prop where
  first : batch.firstSequence.val ≠ 0
  ordered : batch.firstSequence.val ≤ batch.lastSequence.val
  last : batch.lastSequence.val < u64Max
  payload : batch.payload ≠ []
  bounded : batch.payload.length ≤ walMaxPayloadBytes

theorem validate_eq_ok {batch : WalBatch} : batch.validate = .ok () ↔ batch.Valid := by
  have hlast : batch.lastSequence.val < 2 ^ 64 := batch.lastSequence.isLt
  have hmax : u64Max = 2 ^ 64 - 1 := rfl
  simp only [WalBatch.validate, bind_eq_ok, ensure_eq_ok, exists_const]
  constructor
  · rintro ⟨⟨h₁, h₂, h₃⟩, h₄, h₅⟩
    exact ⟨h₁, h₂, by omega, h₄, h₅⟩
  · rintro ⟨h₁, h₂, h₃, h₄, h₅⟩
    exact ⟨⟨h₁, h₂, by omega⟩, h₄, h₅⟩

/-- The positions of the fields that the checksum covers. -/
theorem slice_checkedFields (batch : WalBatch) :
    slice 0 2 (checkedFields batch) = bigEndian 2 formatVersion ∧
    slice 2 4 (checkedFields batch) = [recordKindBatch, 0] ∧
    slice 4 8 (checkedFields batch) = bigEndian 4 batch.payload.length ∧
    slice 8 16 (checkedFields batch) = bigEndian 8 batch.firstSequence.val ∧
    slice 16 24 (checkedFields batch) = bigEndian 8 batch.lastSequence.val := by
  unfold checkedFields
  refine ⟨?_, ?_, ?_, ?_, ?_⟩
  · rw [slice_append_of_le (by simp), slice_append_of_le (by simp), slice_append_of_le (by simp),
      slice_append_of_le (by simp), slice_self (by simp)]
  · rw [slice_append_of_le (by simp), slice_append_of_le (by simp)]
    exact slice_middle (by simp) (by simp)
  · rw [slice_append_of_le (by simp)]
    exact slice_middle (by simp) (by simp)
  · exact slice_middle (by simp) (by simp)
  · rw [slice_append_of_ge (by simp)]
    exact slice_self (by simp)

theorem slice_headerOf (batch : WalBatch) {start stop : Nat} (hstart : 4 ≤ start)
    (hstop : stop ≤ 28) :
    slice start stop (headerOf crc batch) = slice (start - 4) (stop - 4) (checkedFields batch) := by
  have hmagic : recordMagic.length = 4 := rfl
  rw [headerOf, slice_append_of_le (by rw [length_append, length_checkedFields]; omega),
    slice_append_of_ge (by omega), hmagic]

theorem decodeRecordHeader_headerOf {batch : WalBatch} (h : batch.Valid) (offset : Nat) :
    decodeRecordHeader (headerOf crc batch) offset =
      .ok { payloadLen := batch.payload.length, firstSequence := batch.firstSequence.val
            lastSequence := batch.lastSequence.val, checksum := checksumOf crc batch } := by
  obtain ⟨hversion, hkind, hlen, hfirst, hlast⟩ := slice_checkedFields batch
  have hmagic : slice 0 4 (headerOf crc batch) = recordMagic := by
    rw [headerOf, append_assoc, slice_append_of_le (by decide), slice_self (by decide)]
  have hchecksum : slice 28 32 (headerOf crc batch) = bigEndian 4 (checksumOf crc batch) := by
    rw [headerOf, slice_append_of_ge (by simp [recordMagic])]
    exact slice_self (by simp [recordMagic])
  have hbound : batch.payload.length < 256 ^ 4 := by
    have := h.bounded
    have hmax : walMaxPayloadBytes = 16 * 1024 * 1024 := rfl
    omega
  have hpayload : batch.payload.length ≠ 0 := fun hnil => h.payload (length_eq_zero_iff.mp hnil)
  have hcrc : checksumOf crc batch < 256 ^ 4 := (crc [checkedFields batch, batch.payload]).isLt
  have hsequence : ∀ sequence : U64, ofBigEndian (bigEndian 8 sequence.val) = sequence.val :=
    fun sequence => ofBigEndian_bigEndian (sequence.isLt.trans_eq (by norm_num))
  have hversion' : ofBigEndian (bigEndian 2 formatVersion) = formatVersion := by decide
  simp [decodeRecordHeader, hmagic, hchecksum, slice_headerOf, hversion, hversion', hkind, hlen,
    hfirst, hlast, ofBigEndian_bigEndian hbound, ofBigEndian_bigEndian hcrc,
    hsequence, ensure, hpayload, h.bounded, h.first, h.ordered, bind, Except.bind, pure, Except.pure]

/-! ### The writer -/

/-- The batches are valid and their sequences follow each other from `next` on. -/
inductive Follows : Nat → List WalBatch → Prop
  | nil (next : Nat) : Follows next []
  | cons {next : Nat} {batch : WalBatch} {rest : List WalBatch} :
      batch.Valid → batch.firstSequence.val = next → Follows (batch.lastSequence.val + 1) rest →
      Follows next (batch :: rest)

def nextAfter (next : Nat) (batches : List WalBatch) : Nat :=
  batches.foldl (fun _ batch => batch.lastSequence.val + 1) next

/-- A writer that stands at the end of its file. -/
structure WalWriter.Ready (writer : WalWriter) : Prop where
  offset : writer.offset = writer.file.length
  bound : writer.offset ≤ u64Max
  sequence : writer.nextSequence ≤ u64Max
  healthy : writer.poisoned = false

theorem append_eq_ok {writer' : WalWriter} {batch : WalBatch} {durability : Durability}
    {receipt : AppendReceipt} (hready : writer.Ready)
    (h : writer.append crc batch durability = .ok (receipt, writer')) :
    batch.Valid ∧ batch.firstSequence.val = writer.nextSequence ∧ writer'.Ready ∧
      writer'.file = writer.file ++ frame crc batch ∧
      writer'.nextSequence = batch.lastSequence.val + 1 := by
  unfold WalWriter.append at h
  simp only [hready.healthy, Bool.false_eq_true, if_false, bind_eq_ok, ensure_eq_ok,
    recordHeader, pure, Except.pure] at h
  obtain ⟨_, hvalid, _, hfirst, header, ⟨_, -, hheader⟩, h⟩ := h
  have hvalid' := validate_eq_ok.mp hvalid
  cases hend : (checkedAdd writer.offset recordHeaderBytes).bind
      (checkedAdd · batch.payload.length) with
  | none => simp [hend] at h
  | some endOffset =>
    cases hnext : checkedAdd batch.lastSequence.val 1 with
    | none => simp [hend, hnext] at h
    | some next =>
      simp only [hend, hnext, Except.ok.injEq, Prod.mk.injEq] at h
      obtain ⟨-, rfl⟩ := h
      obtain ⟨middle, hmiddle, hend⟩ := Option.bind_eq_some_iff.mp hend
      obtain ⟨rfl, -⟩ := checkedAdd_eq_some hmiddle
      obtain ⟨rfl, hle⟩ := checkedAdd_eq_some hend
      obtain ⟨rfl, hsequence⟩ := checkedAdd_eq_some hnext
      have hfile : writeAt writer.file writer.offset (header ++ batch.payload) =
          writer.file ++ frame crc batch := by
        rw [writeAt, hready.offset, take_length, drop_eq_nil_of_le (by omega),
          append_nil, frame, headerOf, ← Except.ok.inj hheader]
      refine ⟨hvalid', hfirst, ⟨?_, hle, hsequence, rfl⟩, hfile, rfl⟩
      dsimp only
      rw [hfile, length_append, length_frame, hready.offset]
      omega

theorem appendAll_eq_ok {writer' : WalWriter} {batches : List (WalBatch × Durability)}
    (hready : writer.Ready) (h : writer.appendAll crc batches = .ok writer') :
    Follows writer.nextSequence (batches.map Prod.fst) ∧ writer'.Ready ∧
      writer'.file = writer.file ++ frames crc (batches.map Prod.fst) ∧
      writer'.nextSequence = nextAfter writer.nextSequence (batches.map Prod.fst) := by
  induction batches generalizing writer with
  | nil =>
    cases h
    exact ⟨.nil _, hready, (append_nil _).symm, rfl⟩
  | cons batch rest ih =>
    rw [WalWriter.appendAll, foldlM_cons, bind_eq_ok] at h
    obtain ⟨middle, hbatch, hrest⟩ := h
    obtain ⟨⟨receipt, middle'⟩, happend, hmiddle⟩ := bind_eq_ok.mp hbatch
    obtain rfl : middle' = middle := Except.ok.inj hmiddle
    obtain ⟨hvalid, hfirst, hready', hfile, hnext⟩ := append_eq_ok hready happend
    obtain ⟨hfollows, hready'', hfile', hnext'⟩ := ih hready' hrest
    rw [hnext] at hfollows hnext'
    refine ⟨.cons hvalid hfirst hfollows, hready'', ?_, hnext'⟩
    rw [hfile', hfile, append_assoc]
    rfl

theorem createAt_eq_ok (h : createAt crc next = .ok writer) :
    next.val ≠ 0 ∧ writer = { file := fileHeader crc, offset := walHeaderBytes
                              nextSequence := next.val, poisoned := false } := by
  obtain ⟨_, hnext, h⟩ := bind_eq_ok.mp h
  exact ⟨ensure_eq_ok.mp hnext, (Except.ok.inj h).symm⟩

theorem ready_createAt (h : createAt crc next = .ok writer) :
    writer.Ready := by
  obtain ⟨-, rfl⟩ := createAt_eq_ok h
  exact ⟨length_fileHeader.symm, (by decide : walHeaderBytes ≤ u64Max),
    Nat.le_sub_one_of_lt next.isLt, rfl⟩

def recovered (crc : Crc) (offset : Nat) (batch : WalBatch) : RecoveredBatch :=
  { offset, firstSequence := batch.firstSequence.val, lastSequence := batch.lastSequence.val
    checksum := checksumOf crc batch, payload := batch.payload }

section Frame

variable {σ : Type} {f : σ → RecoveredBatch → σ} {front : Bytes} {batch : WalBatch}
  {payloadBytes : Nat} {state : σ}

theorem checkedAdd_of_le {a b : Nat} (h : a + b ≤ u64Max) : checkedAdd a b = some (a + b) := by
  rw [checkedAdd, if_pos h]

theorem bind_checkedAdd_of_le {a b c : Nat} (h : a + b + c ≤ u64Max) :
    (checkedAdd a b).bind (checkedAdd · c) = some (a + b + c) := by
  rw [checkedAdd_of_le (by omega), Option.bind_some, checkedAdd_of_le h]

theorem replayFrame_whole (hvalid : batch.Valid) (back : Bytes)
    (hbound : front.length + (frame crc batch).length ≤ u64Max)
    (hpayload : payloadBytes ≤ front.length) :
    replayFrame crc (fun state batch => .ok (f state batch)) (front ++ frame crc batch ++ back)
      ⟨front.length, batch.firstSequence.val, payloadBytes, state⟩ =
      .ok (⟨front.length + (frame crc batch).length, batch.lastSequence.val + 1,
        payloadBytes + batch.payload.length, f state (recovered crc front.length batch)⟩, none) := by
  have hlength : (frame crc batch).length = recordHeaderBytes + batch.payload.length :=
    length_frame batch
  have hfile : (front ++ frame crc batch ++ back).length =
      front.length + (frame crc batch).length + back.length := by
    rw [length_append, length_append]
  have hheader : slice front.length (front.length + recordHeaderBytes)
      (front ++ frame crc batch ++ back) = headerOf crc batch := by
    rw [frame, ← append_assoc, append_assoc (front ++ headerOf crc batch)]
    exact slice_middle rfl (by rw [length_headerOf])
  have hbody : slice (front.length + recordHeaderBytes)
      (front.length + recordHeaderBytes + batch.payload.length)
      (front ++ frame crc batch ++ back) = batch.payload := by
    rw [frame, ← append_assoc]
    exact slice_middle (by rw [length_append, length_headerOf])
      (by rw [length_append, length_headerOf])
  have hchecked : slice 4 28 (headerOf crc batch) = checkedFields batch := by
    rw [slice_headerOf batch le_rfl le_rfl]
    exact slice_self (by simp)
  have hlong : ¬(front ++ frame crc batch ++ back).length - front.length < recordHeaderBytes := by
    omega
  have hwithin : ¬front.length + recordHeaderBytes + batch.payload.length >
      (front ++ frame crc batch ++ back).length := by omega
  have hstop := bind_checkedAdd_of_le
    (by omega : front.length + recordHeaderBytes + batch.payload.length ≤ u64Max)
  have hcount := checkedAdd_of_le (by omega : payloadBytes + batch.payload.length ≤ u64Max)
  have hnext : checkedAdd batch.lastSequence.val 1 = some (batch.lastSequence.val + 1) :=
    checkedAdd_of_le hvalid.last
  rw [hlength, ← Nat.add_assoc]
  simp only [replayFrame, hlong, if_false, hheader, decodeRecordHeader_headerOf hvalid, hstop,
    hwithin, hbody, hchecked, hcount, hnext, bind, Except.bind, pure, Except.pure, ensure, if_true,
    checksumOf, recovered]

/-- A frame that the file does not have in full is a torn tail. -/
theorem replayFrame_torn (hvalid : batch.Valid)
    (hbound : front.length + (frame crc batch).length ≤ u64Max)
    (hcut : cut < (frame crc batch).length) (replay : σ → RecoveredBatch → Except Error σ) :
    replayFrame crc replay (front ++ (frame crc batch).take cut)
      ⟨front.length, batch.firstSequence.val, payloadBytes, state⟩ =
      .ok (⟨front.length, batch.firstSequence.val, payloadBytes, state⟩, some front.length) := by
  have hlength : (frame crc batch).length = recordHeaderBytes + batch.payload.length :=
    length_frame batch
  have hfile : (front ++ (frame crc batch).take cut).length = front.length + cut := by
    rw [length_append, length_take, Nat.min_eq_left hcut.le]
  by_cases hshort : cut < recordHeaderBytes
  · rw [replayFrame]
    dsimp only
    rw [hfile, if_pos (by omega)]
    rfl
  · -- the header is there, and it says that the payload is not
    have hheader : slice front.length (front.length + recordHeaderBytes)
        (front ++ (frame crc batch).take cut) = headerOf crc batch := by
      rw [frame, take_append, take_of_length_le (by rw [length_headerOf]; omega), ← append_assoc]
      exact slice_middle rfl (by rw [length_headerOf])
    have hlong : ¬(front ++ (frame crc batch).take cut).length - front.length <
        recordHeaderBytes := by omega
    have hbeyond : front.length + recordHeaderBytes + batch.payload.length >
        (front ++ (frame crc batch).take cut).length := by omega
    have hstop := bind_checkedAdd_of_le
      (by omega : front.length + recordHeaderBytes + batch.payload.length ≤ u64Max)
    simp only [replayFrame, hlong, if_false, hheader, decodeRecordHeader_headerOf hvalid, hstop,
      hbeyond, bind, Except.bind, pure, Except.pure, ensure, if_true]

end Frame

def whole : Nat → List WalBatch → List WalBatch
  | _, [] => []
  | cut, batch :: rest =>
    if recordHeaderBytes + batch.payload.length ≤ cut then
      batch :: whole (cut - (recordHeaderBytes + batch.payload.length)) rest
    else []

theorem length_frames_whole_le (crc : Crc) (cut : Nat) (batches : List WalBatch) :
    (frames crc (whole cut batches)).length ≤ cut := by
  induction batches generalizing cut with
  | nil => exact Nat.zero_le _
  | cons batch rest ih =>
    rw [whole]
    split
    · rw [frames_cons, length_append, length_frame]
      have := ih (cut - (recordHeaderBytes + batch.payload.length))
      omega
    · exact Nat.zero_le _

theorem whole_eq_take (cut : Nat) (batches : List WalBatch) :
    whole cut batches = batches.take (whole cut batches).length := by
  induction batches generalizing cut with
  | nil => rfl
  | cons batch rest ih =>
    rw [whole]
    split
    · rw [length_cons, take_succ_cons, ← ih]
    · rfl

/-- No longer prefix fits before the cut. -/
theorem length_le_whole (crc : Crc) (cut : Nat) (batches : List WalBatch) {count : Nat}
    (hcount : count ≤ batches.length) (hfits : (frames crc (batches.take count)).length ≤ cut) :
    count ≤ (whole cut batches).length := by
  induction batches generalizing cut count with
  | nil => exact hcount
  | cons batch rest ih =>
    cases count with
    | zero => exact Nat.zero_le _
    | succ count =>
      rw [take_succ_cons, frames_cons, length_append, length_frame] at hfits
      rw [whole, if_pos (by omega), length_cons]
      have := ih (cut - (recordHeaderBytes + batch.payload.length))
        (Nat.le_of_succ_le_succ hcount) (by omega)
      omega

def recoveredFrom (crc : Crc) : Nat → List WalBatch → List RecoveredBatch
  | _, [] => []
  | offset, batch :: rest =>
    recovered crc offset batch :: recoveredFrom crc (offset + (frame crc batch).length) rest

def payloadTotal (batches : List WalBatch) : Nat :=
  (batches.map fun batch => batch.payload.length).sum

/-- The replay of a cut log: an induction over its frames. What is before the
current frame only counts by its length. -/
theorem replayFrames_cut {σ : Type} {f : σ → RecoveredBatch → σ} {batches : List WalBatch}
    {next : Nat} (hfollows : Follows next batches) (front : Bytes) {payloadBytes : Nat}
    (hcut : cut ≤ (frames crc batches).length)
    (hbound : front.length + (frames crc batches).length ≤ u64Max)
    (hpayload : payloadBytes ≤ front.length) (state : σ) {fuel : Nat} (hfuel : cut ≤ fuel) :
    replayFrames crc (fun state batch => .ok (f state batch))
      (front ++ (frames crc batches).take cut) fuel ⟨front.length, next, payloadBytes, state⟩ =
      .ok (⟨front.length + (frames crc (whole cut batches)).length,
          nextAfter next (whole cut batches), payloadBytes + payloadTotal (whole cut batches),
          (recoveredFrom crc front.length (whole cut batches)).foldl f state⟩,
        if cut = (frames crc (whole cut batches)).length then none
        else some (front.length + (frames crc (whole cut batches)).length)) := by
  induction hfollows generalizing front cut payloadBytes state fuel with
  | nil next =>
    obtain rfl : cut = 0 := Nat.le_zero.mp hcut
    cases fuel with
    | zero => simp [replayFrames, whole, nextAfter, payloadTotal, recoveredFrom]
    | succ fuel => simp [replayFrames, whole, nextAfter, payloadTotal, recoveredFrom]
  | @cons next batch rest hvalid hfirst hrest ih =>
    subst hfirst
    have hlength : (frame crc batch).length = recordHeaderBytes + batch.payload.length :=
      length_frame batch
    rw [frames_cons, length_append] at hcut hbound
    have hpositive : 0 < recordHeaderBytes := by decide
    cases fuel with
    | zero =>
      obtain rfl : cut = 0 := Nat.le_zero.mp hfuel
      rw [whole, if_neg (by omega)]
      simp [replayFrames, nextAfter, payloadTotal, recoveredFrom]
    | succ fuel =>
      rw [replayFrames, frames_cons, take_append]
      by_cases hwhole : (frame crc batch).length ≤ cut
      · -- the frame is before the cut; the rest of the file is a cut of the rest
        rw [take_of_length_le hwhole, ← append_assoc, if_pos (by
          rw [length_append, length_append]; dsimp only; omega),
          replayFrame_whole hvalid _ (by omega) hpayload]
        have hfront : front.length + (frame crc batch).length =
            (front ++ frame crc batch).length := by rw [length_append]
        have hreplay := fun state => ih (front ++ frame crc batch)
          (show cut - (frame crc batch).length ≤ _ by omega)
          (by rw [length_append]; omega)
          (show payloadBytes + batch.payload.length ≤ _ by rw [length_append]; omega) state
          (show _ ≤ fuel by omega)
        have hstep : whole cut (batch :: rest) =
            batch :: whole (cut - (frame crc batch).length) rest := by
          rw [whole, if_pos (by omega), hlength]
        simp only [bind, Except.bind]
        rw [hfront, hreplay, hstep]
        simp only [frames_cons, length_append, nextAfter, foldl_cons, payloadTotal,
          map_cons, sum_cons, recoveredFrom, Nat.add_assoc, Except.ok.injEq,
          Prod.mk.injEq, true_and]
        split
        · rw [if_pos (by omega)]
        · rw [if_neg (by omega)]
      · have hnone : whole cut (batch :: rest) = [] := by rw [whole, if_neg (by omega)]
        rw [show cut - (frame crc batch).length = 0 by omega, take_zero, append_nil, hnone]
        by_cases hzero : cut = 0
        · subst hzero
          simp [nextAfter, payloadTotal, recoveredFrom]
        · have hinside : front.length < (front ++ (frame crc batch).take cut).length := by
            rw [length_append, length_take, Nat.min_eq_left (by omega)]
            omega
          rw [if_pos hinside, replayFrame_torn hvalid (by omega) (by omega)]
          simp [nextAfter, payloadTotal, recoveredFrom, bind, Except.bind, pure, Except.pure, hzero]

/-! ### Recovery -/

/-- The last sequence of a list of batches that starts at `next`. -/
def lastSequenceOf (next : Nat) (batches : List WalBatch) : Nat :=
  batches.getLast?.elim (next - 1) fun batch => batch.lastSequence.val

theorem nextAfter_eq {next : Nat} (hnext : next ≠ 0) (batches : List WalBatch) :
    nextAfter next batches = lastSequenceOf next batches + 1 := by
  rcases eq_nil_or_concat batches with rfl | ⟨front, last, rfl⟩
  · show next = next - 1 + 1
    omega
  · simp [nextAfter, lastSequenceOf]

theorem replayFile_cut {σ : Type} {f : σ → RecoveredBatch → σ} {batches : List WalBatch}
    (hnext : next.val ≠ 0) (hfollows : Follows next.val batches)
    (hbound : walHeaderBytes + (frames crc batches).length ≤ u64Max)
    (hcut : cut ≤ (frames crc batches).length) (initial : σ) :
    replayFile crc (fileHeader crc ++ (frames crc batches).take cut) next
      (fun state batch => .ok (f state batch)) initial =
      .ok ((recoveredFrom crc walHeaderBytes (whole cut batches)).foldl f initial,
        { recoveredThrough := lastSequenceOf next.val (whole cut batches)
          validBytes := walHeaderBytes + (frames crc (whole cut batches)).length
          tornTail := if cut = (frames crc (whole cut batches)).length then none
            else some (walHeaderBytes + (frames crc (whole cut batches)).length)
          payloadBytes := payloadTotal (whole cut batches) }) := by
  have hlength : (fileHeader crc ++ (frames crc batches).take cut).length =
      walHeaderBytes + cut := by
    rw [length_append, length_fileHeader, length_take, Nat.min_eq_left hcut]
  have hheader : slice 0 walHeaderBytes (fileHeader crc ++ (frames crc batches).take cut) =
      fileHeader crc := by
    rw [slice_append_of_le (by rw [length_fileHeader]), slice_self (by rw [length_fileHeader])]
  have hframes := replayFrames_cut (f := f) hfollows (fileHeader crc) hcut
    (by rw [length_fileHeader]; exact hbound) (Nat.zero_le _) initial
    (show cut ≤ walHeaderBytes + cut by omega)
  rw [length_fileHeader] at hframes
  simp only [replayFile, hheader, validateFileHeader_fileHeader, hlength, hframes, ensure, hnext,
    ne_eq, not_false_eq_true, if_true, Nat.le_add_right, bind, Except.bind, pure, Except.pure,
    Nat.zero_add, nextAfter_eq hnext, Nat.add_sub_cancel]

/-- A log without a torn tail opens with the writer that wrote it. -/
theorem openAt_written {batches : List WalBatch} (hnext : next.val ≠ 0)
    (hfollows : Follows next.val batches) (hready : writer.Ready)
    (hfile : writer.file = fileHeader crc ++ frames crc batches)
    (hsequence : writer.nextSequence = nextAfter next.val batches) :
    openAt crc writer.file next = .ok writer := by
  have hlength : writer.offset = walHeaderBytes + (frames crc batches).length := by
    rw [hready.offset, hfile, length_append, length_fileHeader]
  have hwhole : whole (frames crc batches).length batches = batches := by
    have hcount := length_le_whole crc (frames crc batches).length batches le_rfl
      (by rw [take_length])
    rw [whole_eq_take, take_of_length_le hcount]
  have hreplay := replayFile_cut (f := fun (_ : Unit) _ => ()) hnext hfollows
    (hlength ▸ hready.bound) le_rfl ()
  rw [take_length, hwhole, if_pos rfl, ← hfile] at hreplay
  have hchecked : checkedAdd (lastSequenceOf next.val batches) 1 = some writer.nextSequence := by
    rw [hsequence, nextAfter_eq hnext]
    refine checkedAdd_of_le ?_
    rw [← nextAfter_eq hnext, ← hsequence]
    exact hready.sequence
  simp only [openAt, hreplay, hchecked, bind, Except.bind, pure, Except.pure, ← hlength]
  rw [← hready.healthy]

theorem appendAll_append {front back : List (WalBatch × Durability)} :
    writer.appendAll crc (front ++ back) =
      (writer.appendAll crc front >>= fun writer => writer.appendAll crc back) :=
  foldlM_append

/-- Recovery of any cut of a log. The frames before the cut come back, and nothing
else; repairing keeps them alone, and the repaired log goes on as if the others
had never been written. -/
theorem recover_cut {next : U64} {batches : List (WalBatch × Durability)} {start writer : WalWriter}
    (hcreate : createAt crc next = .ok start) (happend : start.appendAll crc batches = .ok writer)
    {cut : Nat} (hlow : walHeaderBytes ≤ cut) (hhigh : cut ≤ writer.file.length) :
    ∃ count ≤ batches.length, ∃ kept, kept = (batches.take count).map Prod.fst ∧
      ∃ validBytes, validBytes = walHeaderBytes + (frames crc kept).length ∧ validBytes ≤ cut ∧
      (∀ count' ≤ batches.length, walHeaderBytes +
        (frames crc ((batches.take count').map Prod.fst)).length ≤ cut → count' ≤ count) ∧
      recoverFrom crc (writer.file.take cut) next =
        .ok { batches := recoveredFrom crc walHeaderBytes kept
              recoveredThrough := lastSequenceOf next.val kept
              validBytes
              tornTail := if cut = validBytes then none else some validBytes } ∧
      repairTornTailFrom crc (writer.file.take cut) next =
        .ok ({ batches := recoveredFrom crc walHeaderBytes kept
               recoveredThrough := lastSequenceOf next.val kept
               validBytes
               tornTail := none }, writer.file.take validBytes) ∧
      ∃ reopened, openAt crc (writer.file.take validBytes) next = .ok reopened ∧
        reopened.nextSequence = lastSequenceOf next.val kept + 1 ∧
        ∀ more, start.appendAll crc (batches.take count ++ more) = reopened.appendAll crc more := by
  obtain ⟨hnext, rfl⟩ := createAt_eq_ok hcreate
  have hstart := ready_createAt hcreate
  obtain ⟨hfollows, hready, hfile, -⟩ := appendAll_eq_ok hstart happend
  generalize hlogged : batches.map Prod.fst = logged at hfollows hfile
  generalize hkept : whole (cut - walHeaderBytes) logged = kept
  have hfront : kept = (batches.take kept.length).map Prod.fst := by
    rw [map_take, hlogged, ← hkept]
    exact whole_eq_take _ _
  have hcount : kept.length ≤ batches.length := by
    rw [hfront, length_map, length_take]
    exact Nat.min_le_right _ _
  -- The batches after the cut are appended to the writer of those before it.
  rw [← take_append_drop kept.length batches, appendAll_append, bind_eq_ok] at happend
  obtain ⟨middle, hmiddle, hrest⟩ := happend
  obtain ⟨hfollows', hready', hfile', hsequence⟩ := appendAll_eq_ok hstart hmiddle
  rw [← hfront] at hfollows' hfile' hsequence
  obtain ⟨-, -, hback, -⟩ := appendAll_eq_ok hready' hrest
  have hlength : middle.file.length = walHeaderBytes + (frames crc kept).length := by
    rw [hfile', length_append, length_fileHeader]
  have hfits : walHeaderBytes + (frames crc kept).length ≤ cut := by
    have := length_frames_whole_le crc (cut - walHeaderBytes) logged
    rw [hkept] at this
    omega
  have hmax : walHeaderBytes + (frames crc logged).length = writer.file.length := by
    rw [hfile, length_append, length_fileHeader]
  have htake : writer.file.take (walHeaderBytes + (frames crc kept).length) = middle.file := by
    rw [hback, take_append_of_le_length (by omega), ← hlength, take_length]
  have hcut : writer.file.take cut =
      fileHeader crc ++ (frames crc logged).take (cut - walHeaderBytes) := by
    rw [hfile, take_append, length_fileHeader,
      take_of_length_le (by rw [length_fileHeader]; exact hlow)]
  have hreplay := replayFile_cut (f := fun batches (batch : RecoveredBatch) => batches ++ [batch])
    hnext hfollows (by rw [hmax, ← hready.offset]; exact hready.bound)
    (show cut - walHeaderBytes ≤ (frames crc logged).length by omega) []
  rw [hkept, foldl_append_eq_append, ← flatMap_def, flatMap_singleton', nil_append,
    ← hcut] at hreplay
  have htorn : (cut - walHeaderBytes = (frames crc kept).length) ↔
      cut = walHeaderBytes + (frames crc kept).length := by omega
  have hrecover : recoverFrom crc (writer.file.take cut) next =
      .ok { batches := recoveredFrom crc walHeaderBytes kept
            recoveredThrough := lastSequenceOf next.val kept
            validBytes := walHeaderBytes + (frames crc kept).length
            tornTail := if cut = walHeaderBytes + (frames crc kept).length then none
              else some (walHeaderBytes + (frames crc kept).length) } := by
    simp only [recoverFrom, hreplay, htorn, bind, Except.bind, pure, Except.pure]
  refine ⟨kept.length, hcount, kept, hfront, _, rfl, hfits, ?_, hrecover, ?_, middle, ?_, ?_, ?_⟩
  · intro count' hcount' hfits'
    rw [← hkept]
    refine length_le_whole crc _ _ ?_ ?_
    · rw [← hlogged, length_map]
      exact hcount'
    · rw [← hlogged, ← map_take]
      omega
  · simp only [repairTornTailFrom, hrecover, bind, Except.bind, pure, Except.pure]
    by_cases hwhole : cut = walHeaderBytes + (frames crc kept).length
    · simp [hwhole]
    · simp [hwhole, take_take, Nat.min_eq_left hfits]
  · rw [htake]
    exact openAt_written hnext hfollows' hready' hfile' hsequence
  · rw [hsequence, nextAfter_eq hnext]
  · intro more
    rw [appendAll_append, hmiddle]
    rfl

namespace Sample

def sumCrc : Crc := fun chunks => Fin.ofNat _ (chunks.flatten.map Fin.val).sum

def batches : List (WalBatch × Durability) :=
  [({ firstSequence := 1, lastSequence := 1, payload := [7] }, .authoritative),
    ({ firstSequence := 2, lastSequence := 3, payload := [8, 9] }, .buffered)]

def start : WalWriter :=
  { file := fileHeader sumCrc, offset := walHeaderBytes, nextSequence := 1, poisoned := false }

end Sample

open Sample in
/-- The second frame loses its last byte. -/
theorem recover_cut_last_byte :
    createAt sumCrc 1 = .ok start ∧ ∃ writer, start.appendAll sumCrc batches = .ok writer ∧
      ∃ count ≤ 2, ∃ kept, kept = (batches.take count).map Prod.fst ∧
        ∃ validBytes, validBytes = walHeaderBytes + (frames sumCrc kept).length ∧
        recoverFrom sumCrc (writer.file.take 82) 1 =
          .ok { batches := recoveredFrom sumCrc walHeaderBytes kept
                recoveredThrough := lastSequenceOf 1 kept
                validBytes
                tornTail := if 82 = validBytes then none else some validBytes } := by
  obtain ⟨writer, hwriter, hlength⟩ : ∃ writer, start.appendAll sumCrc batches = .ok writer ∧
      writer.file.length = 83 := ⟨_, rfl, by decide +kernel⟩
  obtain ⟨count, hcount, kept, hkept, validBytes, hvalid, -, -, hrecover, -⟩ :=
    recover_cut (show createAt sumCrc 1 = .ok start from rfl) hwriter
      (show walHeaderBytes ≤ 82 by decide) (by omega)
  exact ⟨rfl, writer, hwriter, count, hcount, kept, hkept, validBytes, hvalid, hrecover⟩

end Rrflow.Lsm.Wal

import Rrflow.Lsm.Write

/-!
The write-ahead log as bytes.

A log is a file header followed by frames; a frame is a record header with the
sequences and the length of a payload, the payload, and a checksum of both. The
checksum is a parameter: nothing here depends on which function it is.

A crash can cut the file at any byte. `recoverFrom` classifies what is left: whole
frames are replayed, and what follows the last of them is a torn tail.
-/

namespace Rrflow.Lsm.Wal

open Octets Checks

abbrev U64 := Fin (2 ^ 64)

/-- A number in at least eight hexadecimal digits. -/
def hex8 (value : Nat) : String :=
  let digits := Nat.toDigits 16 value
  String.ofList (List.replicate (8 - digits.length) '0' ++ digits)

/-- A checksum of several chunks. -/
abbrev Crc := List Bytes → Fin (2 ^ 32)

def formatVersion : Nat := 1
def fileMagic : Bytes := [82, 82, 68, 87, 65, 76, 48, 49]
def recordMagic : Bytes := [82, 82, 68, 49]
def recordKindBatch : Byte := 1

structure WalBatch where
  firstSequence : U64
  lastSequence : U64
  payload : Bytes

def WalBatch.validate (batch : WalBatch) : Except Error Unit := do
  ensure (batch.firstSequence.val ≠ 0 ∧ batch.firstSequence ≤ batch.lastSequence ∧
      batch.lastSequence.val ≠ u64Max)
    (.invalidBatch "sequence range must be non-zero, ordered, and leave room for its successor")
  ensure (batch.payload ≠ []) (.invalidBatch "payload must not be empty")
  ensure (batch.payload.length ≤ walMaxPayloadBytes)
    (.invalidBatch ("payload is " ++ toString batch.payload.length ++
      " bytes; maximum is 16777216"))

structure AppendReceipt where
  offset : Nat
  endOffset : Nat
  firstSequence : Nat
  lastSequence : Nat
  checksum : Nat
  durable : Bool

structure RecoveredBatch where
  offset : Nat
  firstSequence : Nat
  lastSequence : Nat
  checksum : Nat
  payload : Bytes
  deriving DecidableEq

structure Recovery where
  batches : List RecoveredBatch
  recoveredThrough : Nat
  validBytes : Nat
  tornTail : Option Nat
  deriving DecidableEq

structure RecoverySummary where
  recoveredThrough : Nat
  validBytes : Nat
  tornTail : Option Nat
  payloadBytes : Nat

/-! ### Headers -/

def fileHeaderFields : Bytes :=
  fileMagic ++ bigEndian 2 formatVersion ++ bigEndian 2 walHeaderBytes

variable (crc : Crc)

def fileHeader : Bytes := fileHeaderFields ++ bigEndian 4 (crc [fileHeaderFields]).val

def validateFileHeader (header : Bytes) : Except Error Unit := do
  ensure (slice 0 8 header = fileMagic) (.corruption 0 "WAL file magic does not match")
  ensure (ofBigEndian (slice 8 10 header) = formatVersion) (.unsupportedVersion "WAL"
    (ofBigEndian (slice 8 10 header)))
  ensure (ofBigEndian (slice 10 12 header) = walHeaderBytes)
    (.corruption 10 ("unexpected WAL header length " ++
      toString (ofBigEndian (slice 10 12 header))))
  ensure ((crc [slice 0 12 header]).val = ofBigEndian (slice 12 16 header))
    (.corruption 0 "WAL header checksum mismatch")

variable (batch : WalBatch)

/-- The header fields that the checksum covers. -/
def checkedFields : Bytes :=
  bigEndian 2 formatVersion ++ [recordKindBatch, 0] ++ bigEndian 4 batch.payload.length ++
    bigEndian 8 batch.firstSequence.val ++ bigEndian 8 batch.lastSequence.val

def checksumOf : Nat :=
  (crc [checkedFields batch, batch.payload]).val

def recordHeader : Except Error Bytes := do
  ensure (batch.payload.length < 2 ^ 32) (.invalidBatch "payload length exceeds u32")
  return recordMagic ++ checkedFields batch ++ bigEndian 4 (checksumOf crc batch)

structure DecodedHeader where
  payloadLen : Nat
  firstSequence : Nat
  lastSequence : Nat
  checksum : Nat
  deriving DecidableEq

def decodeRecordHeader (header : Bytes) (offset : Nat) : Except Error DecodedHeader := do
  ensure (slice 0 4 header = recordMagic) (.corruption offset "record magic does not match")
  let version := ofBigEndian (slice 4 6 header)
  ensure (version = formatVersion) (.unsupportedVersion "WAL record" version)
  ensure (slice 6 8 header = [recordKindBatch, 0])
    (.corruption offset "unknown WAL record kind or flags")
  let payloadLen := ofBigEndian (slice 8 12 header)
  ensure (payloadLen ≠ 0 ∧ payloadLen ≤ walMaxPayloadBytes)
    (.corruption offset ("invalid payload length " ++ toString payloadLen))
  let firstSequence := ofBigEndian (slice 12 20 header)
  let lastSequence := ofBigEndian (slice 20 28 header)
  ensure (firstSequence ≠ 0 ∧ firstSequence ≤ lastSequence)
    (.corruption offset "invalid record sequence range")
  return { payloadLen, firstSequence, lastSequence, checksum := ofBigEndian (slice 28 32 header) }

/-- An open log: the bytes of its file and where the next frame goes. -/
structure WalWriter where
  file : Bytes
  offset : Nat
  nextSequence : Nat
  poisoned : Bool

def createAt (nextSequence : U64) : Except Error WalWriter := do
  ensure (nextSequence.val ≠ 0) (.invalidBatch "WAL starting sequence must be non-zero")
  return { file := fileHeader crc, offset := walHeaderBytes
           nextSequence := nextSequence.val, poisoned := false }

variable (file : Bytes)

def writeAt (offset : Nat) (bytes : Bytes) : Bytes :=
  file.take offset ++ bytes ++ file.drop (offset + bytes.length)

def WalWriter.append (writer : WalWriter) (batch : WalBatch) (durability : Durability) :
    Except Error (AppendReceipt × WalWriter) := do
  if writer.poisoned then .error .poisonedWriter
  batch.validate
  ensure (batch.firstSequence.val = writer.nextSequence)
    (.invalidBatch ("expected first sequence " ++ toString writer.nextSequence ++ ", received " ++
      toString batch.firstSequence.val))
  let header ← recordHeader crc batch
  let offset := writer.offset
  match (checkedAdd offset recordHeaderBytes).bind (checkedAdd · batch.payload.length) with
  | none => .error (.invalidBatch "WAL offset overflow")
  | some endOffset =>
    match checkedAdd batch.lastSequence.val 1 with
    | none => .error (.invalidBatch "sequence overflow")
    | some nextSequence =>
      return ({ offset, endOffset, firstSequence := batch.firstSequence.val
                lastSequence := batch.lastSequence.val, checksum := checksumOf crc batch
                durable := durability == .authoritative },
        { writer with
          file := writeAt writer.file offset (header ++ batch.payload)
          offset := endOffset, nextSequence })

/-- Appends one batch after the other; every append must succeed. -/
def WalWriter.appendAll (writer : WalWriter) (batches : List (WalBatch × Durability)) :
    Except Error WalWriter :=
  batches.foldlM (fun writer batch => do
    let (_, writer) ← writer.append crc batch.1 batch.2
    return writer) writer

structure Replay (σ : Type) where
  offset : Nat
  expectedSequence : Nat
  payloadBytes : Nat
  state : σ

/-- One frame of the loop: it ends with the offset of a torn tail, or goes on. -/
def replayFrame {σ : Type} (crc : Crc) (replay : σ → RecoveredBatch → Except Error σ)
    (file : Bytes) (at_ : Replay σ) : Except Error (Replay σ × Option Nat) := do
  let offset := at_.offset
  if file.length - offset < recordHeaderBytes then return (at_, some offset)
  let header := slice offset (offset + recordHeaderBytes) file
  let decoded ← decodeRecordHeader header offset
  ensure (decoded.firstSequence = at_.expectedSequence)
    (.corruption offset ("non-contiguous sequence: expected " ++ toString at_.expectedSequence ++
      ", found " ++ toString decoded.firstSequence))
  match (checkedAdd offset recordHeaderBytes).bind (checkedAdd · decoded.payloadLen) with
  | none => .error (.corruption offset "record length overflow")
  | some stop =>
    if stop > file.length then return (at_, some offset)
    let payload := slice (offset + recordHeaderBytes) stop file
    let actual := (crc [slice 4 28 header, payload]).val
    ensure (actual = decoded.checksum)
      (.corruption offset ("checksum mismatch: expected " ++ hex8 decoded.checksum ++
        ", computed " ++ hex8 actual))
    match checkedAdd at_.payloadBytes payload.length with
    | none => .error (.corruption offset "recovered payload byte count overflow")
    | some payloadBytes =>
      let state ← replay at_.state
        { offset, firstSequence := decoded.firstSequence, lastSequence := decoded.lastSequence
          checksum := decoded.checksum, payload }
      match checkedAdd decoded.lastSequence 1 with
      | none => .error (.corruption offset "sequence overflow")
      | some expectedSequence =>
        return ({ offset := stop, expectedSequence, payloadBytes, state }, none)

/-- The loop over the frames; `fuel` bounds their number. -/
def replayFrames {σ : Type} (crc : Crc) (replay : σ → RecoveredBatch → Except Error σ)
    (file : Bytes) :
    Nat → Replay σ → Except Error (Replay σ × Option Nat)
  | 0, at_ => .ok (at_, none)
  | fuel + 1, at_ =>
    if at_.offset < file.length then do
      let (next, torn) ← replayFrame crc replay file at_
      match torn with
      | some offset => return (next, some offset)
      | none => replayFrames crc replay file fuel next
    else .ok (at_, none)

def replayFile {σ : Type} (crc : Crc) (file : Bytes) (startingSequence : U64)
    (replay : σ → RecoveredBatch → Except Error σ) (initial : σ) :
    Except Error (σ × RecoverySummary) := do
  ensure (startingSequence.val ≠ 0) (.invalidBatch "WAL recovery sequence must be non-zero")
  ensure (walHeaderBytes ≤ file.length) (.corruption 0 "incomplete WAL file header")
  validateFileHeader crc (slice 0 walHeaderBytes file)
  let (last, tornTail) ← replayFrames crc replay file file.length
    { offset := walHeaderBytes, expectedSequence := startingSequence.val
      payloadBytes := 0, state := initial }
  return (last.state,
    { recoveredThrough := last.expectedSequence - 1, validBytes := last.offset, tornTail
      payloadBytes := last.payloadBytes })

variable (startingSequence : U64)

def recoverFrom : Except Error Recovery := do
  let (batches, summary) ← replayFile crc file startingSequence
    (fun batches batch => .ok (batches ++ [batch])) []
  return { batches, recoveredThrough := summary.recoveredThrough, validBytes := summary.validBytes
           tornTail := summary.tornTail }

/-- Cuts off a torn tail; the result is what was recovered and the new file. -/
def repairTornTailFrom : Except Error (Recovery × Bytes) := do
  let recovery ← recoverFrom crc file startingSequence
  let repaired := if recovery.tornTail.isSome then file.take recovery.validBytes else file
  return ({ recovery with tornTail := none }, repaired)

def openAt : Except Error WalWriter := do
  let (_, recovery) ← replayFile crc file startingSequence (fun (_ : Unit) _ => .ok ()) ()
  match recovery.tornTail with
  | some offset => .error (.tornTail offset)
  | none =>
    match checkedAdd recovery.recoveredThrough 1 with
    | none => .error (.invalidBatch "sequence overflow")
    | some nextSequence =>
      return { file, offset := recovery.validBytes, nextSequence, poisoned := false }

end Rrflow.Lsm.Wal

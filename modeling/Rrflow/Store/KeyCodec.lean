import Rrflow.Lib.Octets
import Rrflow.Lib.Reader

/-!
The ordered physical keys of the store.

A key is an address (a format, an optional tenant and an optional scope), a family
and a tuple of typed fields. Fields of fixed width are written big-endian, signed
numbers with their sign bit flipped and descending numbers with every bit flipped;
fields of any width are cut into groups of eight bytes with a padding marker each.
-/

namespace Rrflow.Store

open List OrderCode

open Octets (bigEndian ofBigEndian utf8 fromUtf8)

abbrev Byte := Fin 256

namespace KeyCodec

def tagAbsent : Byte := 0x00
def tagBytes : Byte := 0x20
def tagText : Byte := 0x21
def tagBool : Byte := 0x30
def tagU8 : Byte := 0x31
def tagU64 : Byte := 0x32
def tagI64 : Byte := 0x33
def tagDescU64 : Byte := 0x34
def tagFormat : Byte := 0xf0
def tagFamily : Byte := 0xf1

/-- The number with the bytes `RRKV0001`. -/
def applicationFormat : UInt64 := UInt64.ofNat (ofBigEndian (utf8 "RRKV0001"))

abbrev memcomparableGroupBytes : Nat := 8

abbrev memcomparableFullGroup : Nat := 0xff

end KeyCodec

open KeyCodec

/-- The stable top-level families; their numbers are wire bytes. -/
inductive KeyFamily
  | current
  | temporal
  | outgoingEdge
  | incomingEdge
  | scalar
  | unique
  | termDictionary
  | termStatistic
  | termPosting
  | vector
  | projectionDelta
  | catalogue
  | runtimeCommit
  | outbox
  | audit
  | engineEvent
  | system
  deriving DecidableEq, Repr

namespace KeyFamily

def toByte : KeyFamily → Byte
  | current => 0x10
  | temporal => 0x11
  | outgoingEdge => 0x12
  | incomingEdge => 0x13
  | scalar => 0x14
  | unique => 0x15
  | termDictionary => 0x16
  | termStatistic => 0x17
  | termPosting => 0x18
  | vector => 0x19
  | projectionDelta => 0x1a
  | catalogue => 0x1b
  | runtimeCommit => 0x1c
  | outbox => 0x1d
  | audit => 0x1e
  | engineEvent => 0x1f
  | system => 0x20

end KeyFamily

structure KeyCodecError where
  reason : String
  deriving DecidableEq, Repr

def KeyFamily.tryFrom (value : Byte) : Except KeyCodecError KeyFamily :=
  match value.val with
  | 0x10 => .ok .current
  | 0x11 => .ok .temporal
  | 0x12 => .ok .outgoingEdge
  | 0x13 => .ok .incomingEdge
  | 0x14 => .ok .scalar
  | 0x15 => .ok .unique
  | 0x16 => .ok .termDictionary
  | 0x17 => .ok .termStatistic
  | 0x18 => .ok .termPosting
  | 0x19 => .ok .vector
  | 0x1a => .ok .projectionDelta
  | 0x1b => .ok .catalogue
  | 0x1c => .ok .runtimeCommit
  | 0x1d => .ok .outbox
  | 0x1e => .ok .audit
  | 0x1f => .ok .engineEvent
  | 0x20 => .ok .system
  | _ => .error ⟨"unknown rrflowKV key family"⟩

/-- The tenant and scope in front of every family. -/
structure KeyAddress where
  tenant : Option String
  scope : Option String
  deriving DecidableEq, Repr

inductive KeyPart
  | bytes (value : List Byte)
  | text (value : String)
  | bool (value : Bool)
  | u8 (value : Byte)
  | u64 (value : UInt64)
  | i64 (value : Int64)
  | descU64 (value : UInt64)
  deriving DecidableEq

structure DecodedKey where
  address : KeyAddress
  family : KeyFamily
  parts : List KeyPart
  deriving DecidableEq

variable (reason : String)

namespace KeyCodec

/-- Groups of eight bytes, each behind it how much of it is padding. The last group is the
first that is not full. -/
def encodeMemcomparable (value : List Byte) : List Byte :=
  let take := min value.length memcomparableGroupBytes
  let padding := memcomparableGroupBytes - take
  value.take take ++ List.replicate padding 0 ++
    [Fin.ofNat 256 (memcomparableFullGroup - padding)] ++
    if padding ≠ 0 then [] else encodeMemcomparable (value.drop take)
  termination_by value.length
  decreasing_by
    rename_i h
    have hfull : memcomparableGroupBytes - min value.length memcomparableGroupBytes = 0 :=
      not_not.mp h
    have hgroup : 0 < memcomparableGroupBytes := by decide
    rw [length_drop]
    omega

def encodeOptionalText : Option String → List Byte
  | none => [tagAbsent]
  | some value => tagText :: encodeMemcomparable (utf8 value)

def toBeBytes (value : UInt64) : List Byte := bigEndian 8 value.toNat

/-- The bit that holds the sign of an `i64`. -/
def signBit : UInt64 := (1 : UInt64) <<< 63

def encodePart : KeyPart → List Byte
  | .bytes value => tagBytes :: encodeMemcomparable value
  | .text value => tagText :: encodeMemcomparable (utf8 value)
  | .bool value => [tagBool, if value then 1 else 0]
  | .u8 value => [tagU8, value]
  | .u64 value => tagU64 :: toBeBytes value
  | .i64 value => tagI64 :: toBeBytes (value.toUInt64 ^^^ signBit)
  | .descU64 value => tagDescU64 :: toBeBytes (~~~value)

/-- A complete key, or the prefix of the keys that begin with the given parts. -/
def encode (address : KeyAddress) (family : KeyFamily) (parts : List KeyPart) : List Byte :=
  [tagFormat] ++ toBeBytes applicationFormat ++ encodeOptionalText address.tenant ++
    encodeOptionalText address.scope ++ [tagFamily] ++ [family.toByte] ++ parts.flatMap encodePart

/-! ### Reading -/

abbrev TupleReader := Reader KeyCodecError Byte

def readByte : TupleReader Byte
  | [] => .error ⟨reason⟩
  | byte :: remaining => .ok (byte, remaining)

def expectTag (tag : Byte) (reason : String) : TupleReader Unit := do
  let byte ← readByte reason
  liftM (Checks.ensure (byte = tag) (KeyCodecError.mk reason))

def readU64Payload : TupleReader UInt64 := fun remaining =>
  if remaining.length < 8 then .error ⟨reason⟩
  else .ok (UInt64.ofNat (ofBigEndian (remaining.take 8)), remaining.drop 8)

def truncatedField : KeyCodecError := ⟨"rrflowKV variable-width field is truncated"⟩

def invalidMarker : KeyCodecError :=
  ⟨"rrflowKV variable-width field has an invalid length marker"⟩

def nonCanonicalPadding : KeyCodecError :=
  ⟨"rrflowKV variable-width field has non-canonical padding"⟩

/-- What is left after the groups of one value, and the value behind what was decoded. -/
def readMemcomparable (decoded remaining : List Byte) :
    Except KeyCodecError (List Byte × List Byte) :=
  if remaining.length < memcomparableGroupBytes + 1 then .error truncatedField
  else
    let group := remaining.take memcomparableGroupBytes
    let marker := (remaining.getD memcomparableGroupBytes 0).val
    if marker < memcomparableFullGroup - memcomparableGroupBytes then .error invalidMarker
    else
      let padding := memcomparableFullGroup - marker
      if padding > memcomparableGroupBytes ∨
          (padding ≠ 0 ∧ (group.drop (memcomparableGroupBytes - padding)).any (· ≠ 0)) then
        .error nonCanonicalPadding
      else
        let decoded := decoded ++ group.take (memcomparableGroupBytes - padding)
        let remaining := remaining.drop (memcomparableGroupBytes + 1)
        if padding ≠ 0 then .ok (decoded, remaining) else readMemcomparable decoded remaining
  termination_by remaining.length
  decreasing_by
    rw [length_drop]
    omega

def readValue : TupleReader (List Byte) := readMemcomparable []

def textOf (value : List Byte) : Except KeyCodecError String :=
  match fromUtf8 value with
  | some text => .ok text
  | none => .error ⟨reason⟩

def readText : TupleReader String := do
  let value ← readValue
  liftM (textOf reason value)

def optionalTextReason : String → String
  | "tenant" => "rrflowKV tenant is not UTF-8"
  | _ => "rrflowKV scope is not UTF-8"

def readOptionalText (field : String) : TupleReader (Option String) := do
  let tag ← readByte "rrflowKV key lacks an address component"
  if tag = tagAbsent then return none
  else if tag = tagText then do
    let text ← readText (optionalTextReason field)
    return some text
  else liftM (.error (KeyCodecError.mk "rrflowKV address component has the wrong type") :
    Except KeyCodecError (Option String))

def boolOf (byte : Byte) : Except KeyCodecError Bool :=
  match byte.val with
  | 0 => .ok false
  | 1 => .ok true
  | _ => .error ⟨"rrflowKV bool field is non-canonical"⟩

def readPartOf (tag : Byte) : TupleReader KeyPart :=
  if tag = tagBytes then .bytes <$> readValue
  else if tag = tagText then .text <$> readText "rrflowKV text field is not UTF-8"
  else if tag = tagBool then do
    let byte ← readByte "rrflowKV bool field is truncated"
    .bool <$> liftM (boolOf byte)
  else if tag = tagU8 then .u8 <$> readByte "rrflowKV u8 field is truncated"
  else if tag = tagU64 then .u64 <$> readU64Payload "rrflowKV u64 field is truncated"
  else if tag = tagI64 then
    (fun value => .i64 (value ^^^ signBit).toInt64) <$>
      readU64Payload "rrflowKV i64 field is truncated"
  else if tag = tagDescU64 then
    (fun value => .descU64 (~~~value)) <$>
      readU64Payload "rrflowKV descending u64 field is truncated"
  else liftM (.error (KeyCodecError.mk "unknown rrflowKV tuple field type") :
    Except KeyCodecError KeyPart)

def readPart : TupleReader KeyPart := do
  let tag ← readByte "rrflowKV tuple has a partial field"
  readPartOf tag

/-! ### What the readers accept -/

theorem reads_readByte : (readByte reason).Reads fun byte => [byte] := by
  intro word byte rest
  cases word with
  | nil => simp [readByte]
  | cons first remaining => simp [readByte]

theorem expectTag_eq_ok {tag : Byte} {reason : String} {word rest : List Byte} {u : Unit} :
    expectTag tag reason word = .ok (u, rest) ↔ word = tag :: rest := by
  unfold expectTag
  rw [Reader.bind_eq_ok]
  constructor
  · rintro ⟨byte, middle, hbyte, hcheck⟩
    obtain ⟨htag, rfl⟩ := Reader.lift_eq_ok.mp hcheck
    rw [Checks.ensure_eq_ok] at htag
    subst htag
    exact (reads_readByte reason _ _ _).mp hbyte
  · rintro rfl
    exact ⟨tag, rest, rfl, Reader.lift_eq_ok.mpr ⟨Checks.ensure_eq_ok.mpr rfl, rfl⟩⟩

theorem reads_readU64Payload : (readU64Payload reason).Reads toBeBytes := by
  intro word value rest
  unfold readU64Payload
  split
  next hshort =>
    refine iff_of_false (by simp) fun heq => ?_
    rw [heq, toBeBytes, length_append, Octets.length_bigEndian] at hshort
    omega
  next hlong =>
    have hlength : (word.take 8).length = 8 := by
      rw [length_take]
      omega
    have hlt : ofBigEndian (word.take 8) < 2 ^ 64 := by
      have hbound := Octets.ofBigEndian_lt (word.take 8)
      rwa [hlength] at hbound
    rw [Except.ok.injEq, Prod.mk.injEq]
    constructor
    · rintro ⟨rfl, rfl⟩
      have hback := Octets.bigEndian_ofBigEndian (word.take 8)
      rw [hlength] at hback
      rw [toBeBytes, UInt64.toNat_ofNat', Nat.mod_eq_of_lt hlt, hback, List.take_append_drop]
    · rintro rfl
      have htake : (toBeBytes value ++ rest).take 8 = toBeBytes value := by
        simp [toBeBytes]
      have hdrop : (toBeBytes value ++ rest).drop 8 = rest := by
        simp [toBeBytes]
      rw [htake, hdrop, toBeBytes,
        Octets.ofBigEndian_bigEndian (by simpa [UInt64.size] using value.toNat_lt)]
      simp

/-- The marker of a group with the given number of data bytes. -/
def mark (used : Nat) : Byte := Fin.ofNat 256 (247 + used)

theorem mark_lt {i j : Nat} (hij : i < j) (hj : j ≤ 8) : mark i < mark j := by
  rw [Fin.lt_def, mark, mark, Fin.val_ofNat, Fin.val_ofNat]
  omega

theorem encodeMemcomparable_last {value : List Byte} (h : value.length < 8) :
    encodeMemcomparable value = group 8 mark value := by
  have hmin : min value.length memcomparableGroupBytes = value.length := Nat.min_eq_left h.le
  have hpadding : memcomparableGroupBytes - value.length ≠ 0 := Nat.sub_ne_zero_of_lt h
  rw [encodeMemcomparable]
  simp only [hmin, hpadding, ne_eq, not_false_eq_true, if_true, take_length, append_nil]
  rw [group, mark, show memcomparableFullGroup - (memcomparableGroupBytes - value.length) =
    247 + value.length by simp only [memcomparableFullGroup, memcomparableGroupBytes]; omega]
  rfl

theorem encodeMemcomparable_full {chunk value : List Byte} (h : chunk.length = 8) :
    encodeMemcomparable (chunk ++ value) = group 8 mark chunk ++ encodeMemcomparable value := by
  have hmin : min (chunk ++ value).length memcomparableGroupBytes = 8 := by
    rw [length_append, memcomparableGroupBytes]
    omega
  rw [encodeMemcomparable]
  simp only [hmin]
  rw [take_left' h, drop_left' h, group, h]
  rfl

/-- One group is read at a time; the first that is not full ends the value. -/
theorem readMemcomparable_group {chunk : List Byte} (h : chunk.length ≤ 8)
    (decoded rest : List Byte) :
    readMemcomparable decoded (group 8 mark chunk ++ rest) =
      if chunk.length = 8 then readMemcomparable (decoded ++ chunk) rest
      else .ok (decoded ++ chunk, rest) := by
  have hgroup : (group 8 mark chunk ++ rest).take 8 =
      chunk ++ List.replicate (8 - chunk.length) 0 := by
    rw [group, append_assoc]
    exact take_left' (by rw [length_append, length_replicate]; omega)
  have hmark : (group 8 mark chunk ++ rest).getD 8 0 = mark chunk.length := by
    have hlength : (chunk ++ List.replicate (8 - chunk.length) (⊥ : Byte)).length = 8 := by
      rw [length_append, length_replicate]
      omega
    rw [group, append_assoc, getD_eq_getElem?_getD, getElem?_append_right hlength.le, hlength]
    rfl
  have hmarker : (mark chunk.length).val = 247 + chunk.length := by
    rw [mark, Fin.val_ofNat]
    omega
  have hrest : (group 8 mark chunk ++ rest).drop 9 = rest :=
    drop_left' (length_group h)
  have hzeros : ((chunk ++ List.replicate (8 - chunk.length) (0 : Byte)).drop
      chunk.length).any (· ≠ 0) = false := by
    rw [drop_left]
    simp
  rw [readMemcomparable, if_neg (by
    rw [length_append, length_group h, memcomparableGroupBytes]; omega)]
  simp only [memcomparableGroupBytes, memcomparableFullGroup, hgroup, hmark, hmarker, hrest]
  rw [if_neg (by omega), show 8 - (255 - (247 + chunk.length)) = chunk.length by omega,
    if_neg (by rw [hzeros]; simp; omega), take_left]
  by_cases hfull : chunk.length = 8
  · rw [if_neg (by omega), if_pos hfull]
  · rw [if_pos (by omega), if_neg hfull]

theorem exists_group_of_readMemcomparable {decoded word value rest : List Byte}
    (h : readMemcomparable decoded word = .ok (value, rest)) :
    ∃ chunk tail, chunk.length ≤ 8 ∧ word = group 8 mark chunk ++ tail := by
  rw [readMemcomparable] at h
  simp only [memcomparableGroupBytes, memcomparableFullGroup] at h
  by_cases hlength : word.length < 8 + 1
  · rw [if_pos hlength] at h
    cases h
  rw [if_neg hlength] at h
  by_cases hmarker : (word.getD 8 0).val < 255 - 8
  · rw [if_pos hmarker] at h
    cases h
  rw [if_neg hmarker] at h
  by_cases hpadding : 255 - (word.getD 8 0).val > 8 ∨ (255 - (word.getD 8 0).val ≠ 0 ∧
      ((word.take 8).drop (8 - (255 - (word.getD 8 0).val))).any (· ≠ 0))
  · rw [if_pos hpadding] at h
    cases h
  clear h
  obtain ⟨marker, hget⟩ : ∃ marker, word[8]? = some marker :=
    ⟨_, getElem?_eq_getElem (by omega)⟩
  rw [getD_eq_getElem?_getD, hget, Option.getD_some] at hmarker hpadding
  have hbound := marker.isLt
  obtain ⟨used, hused, hle⟩ : ∃ used, marker.val = 247 + used ∧ used ≤ 8 :=
    ⟨marker.val - 247, by omega, by omega⟩
  have hchunk : ((word.take 8).take used).length = used := by
    rw [length_take, length_take]
    omega
  have hzeros : (word.take 8).drop used = List.replicate (8 - used) 0 := by
    rw [eq_replicate_iff]
    refine ⟨by rw [length_drop, length_take]; omega, fun byte hbyte => ?_⟩
    by_contra hne
    refine hpadding (.inr ⟨?_, ?_⟩)
    · have hpos := length_pos_of_mem hbyte
      rw [length_drop, length_take] at hpos
      omega
    · rw [show 8 - (255 - marker.val) = used by omega, any_eq_true]
      exact ⟨byte, hbyte, by simpa using hne⟩
  refine ⟨(word.take 8).take used, word.drop 9, by omega, ?_⟩
  have hmark : mark used = marker := by
    apply Fin.ext
    rw [mark, Fin.val_ofNat]
    omega
  obtain ⟨hlt, hmarkerEq⟩ := List.getElem?_eq_some_iff.mp hget
  rw [group, hchunk, hmark, ← hmarkerEq]
  have hparts : (word.take 8).take used ++ List.replicate (8 - used) (⊥ : Byte) = word.take 8 := by
    conv_rhs => rw [← List.take_append_drop used (word.take 8), hzeros]
    rfl
  rw [hparts, append_assoc, singleton_append, ← drop_eq_getElem_cons hlt, List.take_append_drop]

theorem exists_of_readMemcomparable {decoded word value rest : List Byte}
    (h : readMemcomparable decoded word = .ok (value, rest)) :
    ∃ more, value = decoded ++ more ∧ word = encodeMemcomparable more ++ rest := by
  induction hn : word.length using Nat.strong_induction_on generalizing word decoded with
  | _ n ih =>
    obtain ⟨chunk, tail, hchunk, rfl⟩ := exists_group_of_readMemcomparable h
    rw [readMemcomparable_group hchunk] at h
    by_cases hfull : chunk.length = 8
    · rw [if_pos hfull] at h
      rw [length_append, length_group hchunk] at hn
      obtain ⟨more, rfl, rfl⟩ := ih tail.length (by omega) h rfl
      exact ⟨chunk ++ more, by rw [append_assoc],
        by rw [encodeMemcomparable_full hfull, append_assoc]⟩
    · rw [if_neg hfull, Except.ok.injEq, Prod.mk.injEq] at h
      obtain ⟨rfl, rfl⟩ := h
      exact ⟨chunk, rfl, by rw [encodeMemcomparable_last (by omega)]⟩

theorem readMemcomparable_encode (decoded value rest : List Byte) :
    readMemcomparable decoded (encodeMemcomparable value ++ rest) =
      .ok (decoded ++ value, rest) := by
  induction hn : value.length using Nat.strong_induction_on generalizing value decoded with
  | _ n ih =>
    by_cases hlast : value.length < 8
    · rw [encodeMemcomparable_last hlast, readMemcomparable_group hlast.le, if_neg (by omega)]
    · have htake : (value.take 8).length = 8 := by
        rw [length_take]
        omega
      have htail := ih (value.drop 8).length (by rw [length_drop]; omega)
        (decoded ++ value.take 8) (value.drop 8) rfl
      rw [append_assoc, List.take_append_drop] at htail
      conv_lhs => rw [← List.take_append_drop 8 value]
      rw [encodeMemcomparable_full htake, append_assoc, readMemcomparable_group htake.le,
        if_pos htake, htail]

theorem reads_readValue : readValue.Reads encodeMemcomparable := by
  intro word value rest
  constructor
  · intro h
    obtain ⟨more, rfl, rfl⟩ := exists_of_readMemcomparable h
    rfl
  · rintro rfl
    exact readMemcomparable_encode [] value rest

theorem textOf_eq_ok {reason : String} {value : List Byte} {text : String} :
    textOf reason value = .ok text ↔ value = utf8 text := by
  rw [← Octets.fromUtf8_eq_some, textOf]
  cases fromUtf8 value <;> simp

theorem reads_readText : (readText reason).Reads fun text => encodeMemcomparable (utf8 text) := by
  intro word text rest
  rw [readText, Reader.bind_eq_ok]
  constructor
  · rintro ⟨value, middle, hvalue, hread⟩
    obtain ⟨htext, rfl⟩ := Reader.lift_eq_ok.mp hread
    rw [textOf_eq_ok] at htext
    subst htext
    exact (reads_readValue _ _ _).mp hvalue
  · rintro rfl
    exact ⟨utf8 text, rest, reads_readValue.read _ _, Reader.lift_eq_ok.mpr
      ⟨textOf_eq_ok.mpr rfl, rfl⟩⟩

theorem reads_readOptionalText (field : String) :
    (readOptionalText field).Reads encodeOptionalText := by
  intro word text rest
  rw [readOptionalText, Reader.bind_eq_ok]
  constructor
  · rintro ⟨tag, middle, htag, hread⟩
    rw [reads_readByte] at htag
    subst htag
    split at hread
    next habsent =>
      obtain ⟨rfl, rfl⟩ := Reader.pure_eq_ok.mp hread
      subst habsent
      rfl
    next =>
      split at hread
      next htext =>
        obtain ⟨value, middle, hvalue, hsome⟩ := Reader.bind_eq_ok.mp hread
        obtain ⟨rfl, rfl⟩ := Reader.pure_eq_ok.mp hsome
        rw [reads_readText] at hvalue
        rw [hvalue, htext]
        rfl
      next =>
        obtain ⟨herror, -⟩ := Reader.lift_eq_ok.mp hread
        cases herror
  · rintro rfl
    cases text with
    | none => exact ⟨tagAbsent, rest, rfl, rfl⟩
    | some text =>
      exact ⟨tagText, encodeMemcomparable (utf8 text) ++ rest, rfl, Reader.bind_eq_ok.mpr
        ⟨text, rest, (reads_readText _).read _ _, rfl⟩⟩

theorem boolOf_eq_ok {byte : Byte} {value : Bool} :
    boolOf byte = .ok value ↔ byte = if value then 1 else 0 := by
  constructor
  · unfold boolOf
    split
    next hzero =>
      rintro ⟨⟩
      exact Fin.ext hzero
    next hone =>
      rintro ⟨⟩
      exact Fin.ext hone
    next => nofun
  · rintro rfl
    cases value <;> rfl

theorem toInt64_xor_signBit {value : UInt64} {signed : Int64} :
    (value ^^^ signBit).toInt64 = signed ↔ value = signed.toUInt64 ^^^ signBit := by
  constructor
  · rintro rfl
    rw [UInt64.toUInt64_toInt64, UInt64.xor_assoc, UInt64.xor_self, UInt64.xor_zero]
  · rintro rfl
    rw [UInt64.xor_assoc, UInt64.xor_self, UInt64.xor_zero, Int64.toInt64_toUInt64]

theorem readPartOf_eq_ok {tag : Byte} {word rest : List Byte} {part : KeyPart} :
    readPartOf tag word = .ok (part, rest) ↔ tag :: word = encodePart part ++ rest := by
  constructor
  · intro h
    unfold readPartOf at h
    split at h
    next htag =>
      obtain ⟨value, rfl, hvalue⟩ := Reader.map_eq_ok.mp h
      rw [(reads_readValue _ _ _).mp hvalue, htag]
      rfl
    split at h
    next htag =>
      obtain ⟨text, rfl, htext⟩ := Reader.map_eq_ok.mp h
      rw [(reads_readText _ _ _ _).mp htext, htag]
      rfl
    split at h
    next htag =>
      obtain ⟨byte, middle, hbyte, hmap⟩ := Reader.bind_eq_ok.mp h
      obtain ⟨value, rfl, hlift⟩ := Reader.map_eq_ok.mp hmap
      obtain ⟨hbool, rfl⟩ := Reader.lift_eq_ok.mp hlift
      rw [(reads_readByte _ _ _ _).mp hbyte, htag, boolOf_eq_ok.mp hbool]
      rfl
    split at h
    next htag =>
      obtain ⟨byte, rfl, hbyte⟩ := Reader.map_eq_ok.mp h
      rw [(reads_readByte _ _ _ _).mp hbyte, htag]
      rfl
    split at h
    next htag =>
      obtain ⟨value, rfl, hvalue⟩ := Reader.map_eq_ok.mp h
      rw [(reads_readU64Payload _ _ _ _).mp hvalue, htag]
      rfl
    split at h
    next htag =>
      obtain ⟨value, rfl, hvalue⟩ := Reader.map_eq_ok.mp h
      rw [(reads_readU64Payload _ _ _ _).mp hvalue, htag, encodePart, ← toInt64_xor_signBit.mp rfl]
      rfl
    split at h
    next htag =>
      obtain ⟨value, rfl, hvalue⟩ := Reader.map_eq_ok.mp h
      rw [(reads_readU64Payload _ _ _ _).mp hvalue, htag, encodePart, UInt64.not_not]
      rfl
    obtain ⟨herror, -⟩ := Reader.lift_eq_ok.mp h
    cases herror
  · intro h
    cases part <;> obtain ⟨rfl, rfl⟩ := List.cons.inj h
    case bytes value => exact Reader.map_eq_ok.mpr ⟨value, rfl, reads_readValue.read _ _⟩
    case text value => exact Reader.map_eq_ok.mpr ⟨value, rfl, (reads_readText _).read _ _⟩
    case bool value =>
      exact Reader.bind_eq_ok.mpr ⟨_, rest, rfl, Reader.map_eq_ok.mpr
        ⟨value, rfl, Reader.lift_eq_ok.mpr ⟨boolOf_eq_ok.mpr rfl, rfl⟩⟩⟩
    case u8 value => exact Reader.map_eq_ok.mpr ⟨value, rfl, rfl⟩
    case u64 value => exact Reader.map_eq_ok.mpr ⟨value, rfl, (reads_readU64Payload _).read _ _⟩
    case i64 value =>
      exact Reader.map_eq_ok.mpr ⟨value.toUInt64 ^^^ signBit,
        congrArg KeyPart.i64 (toInt64_xor_signBit.mpr rfl), (reads_readU64Payload _).read _ _⟩
    case descU64 value =>
      exact Reader.map_eq_ok.mpr ⟨~~~value, congrArg KeyPart.descU64 (UInt64.not_not ..),
        (reads_readU64Payload _).read _ _⟩

theorem reads_readPart : readPart.Reads encodePart := by
  intro word part rest
  rw [readPart, Reader.bind_eq_ok]
  constructor
  · rintro ⟨tag, middle, htag, hpart⟩
    rw [(reads_readByte _ _ _ _).mp htag]
    exact readPartOf_eq_ok.mp hpart
  · intro h
    cases word with
    | nil => cases part <;> cases h
    | cons tag word => exact ⟨tag, word, rfl, readPartOf_eq_ok.mpr h⟩

theorem encodePart_ne_nil (part : KeyPart) : encodePart part ≠ [] := by
  cases part <;> exact cons_ne_nil _ _

def readHeader : TupleReader (KeyAddress × KeyFamily) := do
  expectTag tagFormat "rrflowKV key lacks its format field"
  let format ← readU64Payload "rrflowKV key has a truncated format field"
  liftM (Checks.ensure (format = applicationFormat)
    (KeyCodecError.mk "unsupported rrflowKV key format"))
  let tenant ← readOptionalText "tenant"
  let scope ← readOptionalText "scope"
  expectTag tagFamily "rrflowKV key lacks its family field"
  let byte ← readByte "rrflowKV key lacks its family byte"
  let family ← liftM (KeyFamily.tryFrom byte)
  return (⟨tenant, scope⟩, family)

def readParts (remaining : List Byte) : Except KeyCodecError (List KeyPart) :=
  readPart.whole (reads_readPart.shrinks encodePart_ne_nil) remaining

def decode (encoded : List Byte) : Except KeyCodecError DecodedKey := do
  let (header, remaining) ← readHeader encoded
  let parts ← readParts remaining
  return ⟨header.1, header.2, parts⟩

/-- The exclusive upper bound of the words that begin with a word, found from its end. -/
def prefixEndReversed : List Byte → Option (List Byte)
  | [] => none
  | last :: end_ =>
    if last ≠ 255 then some ((last + 1) :: end_) else prefixEndReversed end_

def prefixEnd (stem : List Byte) : Option (List Byte) :=
  (prefixEndReversed stem.reverse).map List.reverse

end KeyCodec

end Rrflow.Store
